import Mathlib.Data.List.Forall2
import Sparsam.ListPairing
import Sparsam.ThriftParser

set_option autoImplicit false

/-!
# What a field list keeps of its declarations

A member keeps the type, name, key and value its declaration gave it; of a
struct made of the list only `req` can still change, when a union is validated.
-/
namespace Sparsam.FieldLists
open ListPairing ThriftTypes ThriftScope ThriftParser

section Union
variable {τ : Type}

def sansReq (f : TFieldOf τ) : TFieldOf τ := { f with req := .T_OPT_IN_REQ_OUT }

/-- The same struct but for the requiredness of its members. -/
structure SameMembers (s s' : TStructOf τ) : Prop where
  members : s'.members.map sansReq = s.members.map sansReq
  name : s'.name = s.name
  isXception : s'.isXception = s.isXception
  isUnion : s'.isUnion = s.isUnion
  program : s'.program = s.program

theorem SameMembers.refl (s : TStructOf τ) : SameMembers s s := ⟨rfl, rfl, rfl, rfl, rfl⟩

theorem SameMembers.trans {s t u : TStructOf τ} (h : SameMembers s t) (h' : SameMembers t u) :
    SameMembers s u := by
  refine ⟨?_, ?_, ?_, ?_, ?_⟩
  · rw [h'.members, h.members]
  · rw [h'.name, h.name]
  · rw [h'.isXception, h.isXception]
  · rw [h'.isUnion, h.isUnion]
  · rw [h'.program, h.program]

theorem setReq_sameMembers (s : TStructOf τ) (key : Int32) (req : Req) :
    SameMembers s (s.setReq key req) := by
  refine ⟨?_, rfl, rfl, rfl, rfl⟩
  change (s.members.map fun f => if f.key = key then { f with req := req } else f).map sansReq = _
  rw [List.map_map]
  apply List.map_congr_left
  intro f _
  unfold sansReq
  rw [Function.comp_apply]
  split <;> rfl

theorem validateUnionMember_sameMembers {s s' : TStructOf τ} {f : TFieldOf τ}
    (h : s.validateUnionMember f = .ok s') : SameMembers s s' := by
  have hcount : ∀ r : TStructOf τ, SameMembers s r →
      (if f.value.isSome then
        if 1 < r.membersWithValue + 1 then
          failure ("Error: Field " ++ f.name ++ " provides another default value for union " ++
            r.name)
        else pure { r with membersWithValue := r.membersWithValue + 1 }
      else pure r : Compile (TStructOf τ)) = .ok s' → SameMembers s s' := by
    intro r hr h
    split at h
    · split at h
      · cases h
      · rw [← Except.ok.inj h]
        exact hr.trans ⟨rfl, rfl, rfl, rfl, rfl⟩
    · rw [← Except.ok.inj h]
      exact hr
  unfold TStructOf.validateUnionMember at h
  split at h
  · refine hcount _ ?_ h
    split
    · exact setReq_sameMembers s f.key .T_OPTIONAL
    · exact SameMembers.refl s
  · rw [← Except.ok.inj h]
    exact SameMembers.refl s

theorem validateEach_sameMembers {s s' : TStructOf τ} {fs : List (TFieldOf τ)}
    (h : fs.foldlM TStructOf.validateUnionMember s = .ok s') : SameMembers s s' := by
  induction fs generalizing s with
  | nil =>
    rw [← Except.ok.inj h]
    exact SameMembers.refl s
  | cons f fs ih =>
    obtain ⟨q, hq, h⟩ := bind_ok h
    exact (validateUnionMember_sameMembers hq).trans (ih h)

theorem validateUnionMembers_sameMembers {s s' : TStructOf τ}
    (h : s.validateUnionMembers = .ok s') : SameMembers s s' := by
  unfold TStructOf.validateUnionMembers at h
  split at h
  · obtain ⟨r, hr, h⟩ := bind_ok h
    rw [← Except.ok.inj h]
    exact (validateEach_sameMembers hr).trans ⟨rfl, rfl, rfl, rfl, rfl⟩
  · rw [← Except.ok.inj h]
    exact SameMembers.refl s

theorem insertInIdOrder_perm (f : TFieldOf τ) (fs : List (TFieldOf τ)) :
    (TStructOf.insertInIdOrder f fs).Perm (f :: fs) := by
  induction fs with
  | nil => exact .refl _
  | cons g fs ih =>
    unfold TStructOf.insertInIdOrder
    split
    · exact .refl _
    · exact (ih.cons g).trans (.swap f g fs)

theorem sortedMembers_perm (s : TStructOf τ) : s.sortedMembers.Perm s.members := by
  have hfold : ∀ fs acc : List (TFieldOf τ),
      (fs.foldl (fun sorted f => TStructOf.insertInIdOrder f sorted) acc).Perm (fs ++ acc) := by
    intro fs
    induction fs with
    | nil => exact fun acc => .refl _
    | cons f fs ih =>
      intro acc
      have hinsert := (insertInIdOrder_perm f acc).append_left fs
      exact (ih _).trans (hinsert.trans List.perm_middle)
  have hsorted := hfold s.members []
  rw [List.append_nil] at hsorted
  exact hsorted

theorem getFieldByName_eq_none {s : TStructOf τ} {name : String}
    (h : (s.getFieldByName name).isSome ≠ true) : ∀ g ∈ s.members, g.name ≠ name := by
  intro g hg hname
  have hmem := (sortedMembers_perm s).mem_iff.mpr hg
  apply h
  unfold TStructOf.getFieldByName
  rw [List.find?_isSome]
  exact ⟨g, hmem, by simpa using hname⟩

theorem append_ok {s s' : TStructOf τ} {f : TFieldOf τ} (hunion : s.isUnion = false)
    (h : s.append f = .ok (some s')) :
    s' = { s with members := s.members ++ [f] } ∧ (∀ g ∈ s.members, g.key ≠ f.key) ∧
      ∀ g ∈ s.members, g.name ≠ f.name := by
  unfold TStructOf.append at h
  split at h
  · cases h
  rename_i hkey
  split at h
  · cases h
  rename_i hname
  obtain ⟨r, hr, h⟩ := bind_ok h
  obtain rfl := Option.some.inj (Except.ok.inj h)
  refine ⟨?_, fun g hg heq => hkey ?_, getFieldByName_eq_none hname⟩
  · unfold TStructOf.validateUnionMember at hr
    rw [if_neg (by simp [hunion])] at hr
    exact (Except.ok.inj hr).symm
  · rw [List.any_eq_true]
    exact ⟨g, hg, by simpa using heq⟩

end Union

section Fields
variable {flags : Flags} {scopes : String → Scope} {fuel : ℕ} {program : TProgram} {scope : Scope}
variable {arglist : Bool}

theorem appendField_ok {s s' : TStruct} {f : TField} (hunion : s.isUnion = false)
    (h : appendField s f = .ok s') :
    s' = { s with members := s.members ++ [f] } ∧ (∀ g ∈ s.members, g.key ≠ f.key) ∧
      ∀ g ∈ s.members, g.name ≠ f.name := by
  obtain ⟨r, hr, h⟩ := bind_ok h
  cases r with
  | none => cases h
  | some r =>
    rw [← Except.ok.inj h]
    exact append_ok hunion hr

/-- What the field that a declaration makes has from it. -/
structure FieldOf (program : TProgram) (scope : Scope) (d : FieldDecl) (f : TField) : Prop where
  type : f.type = fieldType program scope d.type
  name : f.name = d.name
  simple : '.' ∉ d.name.toList

theorem field_ok {y y' : Int32} {d : FieldDecl} {f : TField}
    (h : field flags scopes fuel program scope arglist y d = .ok (f, y')) :
    FieldOf program scope d f := by
  obtain ⟨doc, identifier, requiredness, type, name, value, xsdAttrs, annotations⟩ := d
  unfold field at h
  obtain ⟨z, -, h⟩ := bind_ok h
  split at h
  · cases h
  · obtain ⟨u, hu, h⟩ := bind_ok h
    obtain ⟨v, -, h⟩ := bind_ok h
    obtain ⟨rfl, -⟩ := Prod.mk.inj (Except.ok.inj h)
    refine ⟨rfl, rfl, fun hdot => ?_⟩
    unfold validateSimpleIdentifier at hu
    rw [if_pos (by simpa using hdot)] at hu
    cases hu

theorem fieldListFrom_ok {s s' : TStruct} {y y' : Int32} {ds : List FieldDecl}
    (hunion : s.isUnion = false)
    (h : fieldListFrom flags scopes fuel program scope arglist s y ds = .ok (s', y')) :
    ∃ fs, s' = { s with members := s.members ++ fs } ∧
      List.Forall₂ (FieldOf program scope) ds fs := by
  induction ds generalizing s y with
  | nil =>
    unfold fieldListFrom at h
    obtain ⟨rfl, -⟩ := Prod.mk.inj (Except.ok.inj h)
    exact ⟨[], by rw [List.append_nil], .nil⟩
  | cons d ds ih =>
    unfold fieldListFrom at h
    obtain ⟨⟨f, z⟩, hf, h⟩ := bind_ok h
    obtain ⟨t, ht, h⟩ := bind_ok h
    obtain ⟨heq, -, -⟩ := appendField_ok hunion ht
    subst heq
    have hunion' : TStructOf.isUnion { s with members := s.members ++ [f] } = false := hunion
    obtain ⟨fs, heq, hfs⟩ := ih hunion' h
    refine ⟨f :: fs, ?_, .cons (field_ok hf) hfs⟩
    rw [heq, List.append_assoc]
    rfl

theorem fieldList_ok {s : TStruct} {ds : List FieldDecl}
    (h : fieldList flags scopes fuel program scope arglist ds = .ok s) :
    s.isUnion = false ∧ s.program = program ∧
      List.Forall₂ (FieldOf program scope) ds s.members := by
  obtain ⟨⟨s', y⟩, hs, h⟩ := bind_ok h
  obtain ⟨fs, heq, hfs⟩ := fieldListFrom_ok rfl hs
  rw [← Except.ok.inj h, heq]
  exact ⟨rfl, rfl, hfs⟩

/-- The types a field list gives its members. -/
def MemberTypes (program : TProgram) (scope : Scope) (s : TStruct) : Prop :=
  ∀ f ∈ s.members, ∃ type, f.type = fieldType program scope type

theorem fieldList_types {s : TStruct} {ds : List FieldDecl}
    (h : fieldList flags scopes fuel program scope arglist ds = .ok s) :
    MemberTypes program scope s := by
  intro f hf
  obtain ⟨d, -, hd⟩ := mem_of_forall₂ (fieldList_ok h).2.2 hf
  exact ⟨d.type, hd.type⟩

theorem SameMembers.types {s s' : TStruct} (h : SameMembers s s')
    (hs : MemberTypes program scope s) : MemberTypes program scope s' := by
  intro f hf
  have hmem : sansReq f ∈ s.members.map sansReq := h.members ▸ List.mem_map_of_mem hf
  obtain ⟨g, hg, heq⟩ := List.mem_map.mp hmem
  obtain ⟨type, htype⟩ := hs g hg
  have hsame : g.type = f.type := by
    change (sansReq g).type = (sansReq f).type
    rw [heq]
  exact ⟨type, hsame.symm.trans htype⟩

theorem setName_sameMembers {s s' : TStruct} {name : String} (h : s.setName name = .ok s') :
    SameMembers { s with name := name } s' :=
  validateUnionMembers_sameMembers h

theorem struct_ok {isUnion : Bool} {name : String} {ds : List FieldDecl} {s : TStruct}
    (h : struct flags scopes fuel program scope isUnion name ds = .ok s) :
    s.name = name ∧ s.isUnion = isUnion ∧ s.program = program ∧ MemberTypes program scope s := by
  obtain ⟨r, hr, h⟩ := bind_ok h
  obtain ⟨u, -, h⟩ := bind_ok h
  obtain ⟨t, ht, h⟩ := bind_ok h
  have hunion := validateUnionMembers_sameMembers ht
  have hname := setName_sameMembers h
  refine ⟨hname.name, hname.isUnion.trans hunion.isUnion, ?_, ?_⟩
  · exact hname.program.trans (hunion.program.trans (fieldList_ok hr).2.1)
  have htypes := fieldList_types hr
  exact hname.types (hunion.types htypes)

theorem xception_ok {name : String} {ds : List FieldDecl} {s : TStruct}
    (h : xception flags scopes fuel program scope name ds = .ok s) :
    s.name = name ∧ s.isXception = true ∧ s.program = program ∧ MemberTypes program scope s := by
  obtain ⟨r, hr, h⟩ := bind_ok h
  obtain ⟨u, -, h⟩ := bind_ok h
  obtain ⟨t, ht, h⟩ := bind_ok h
  obtain rfl := Except.ok.inj h
  have hname := setName_sameMembers ht
  refine ⟨hname.name, rfl, hname.program.trans (fieldList_ok hr).2.1, ?_⟩
  have htypes := fieldList_types hr
  exact hname.types htypes

/-- The types a function gives its result, its arguments and its exceptions. -/
structure FunctionTypes (program : TProgram) (scope : Scope) (f : TFunction) : Prop where
  returntype : f.returntype = .baseType .TYPE_VOID false ∨
    ∃ type, f.returntype = fieldType program scope type
  arglist : MemberTypes program scope f.arglist
  xceptions : MemberTypes program scope f.xceptions

theorem function_ok {d : FunctionDecl} {f : TFunction}
    (h : function flags scopes fuel program scope d = .ok f) : FunctionTypes program scope f := by
  unfold function at h
  obtain ⟨args, hargs, h⟩ := bind_ok h
  obtain ⟨throws, hthrows, h⟩ := bind_ok h
  obtain ⟨u, -, h⟩ := bind_ok h
  obtain ⟨v, -, h⟩ := bind_ok h
  obtain ⟨named, hnamed, h⟩ := bind_ok h
  split at h
  · cases h
  rw [← Except.ok.inj h]
  refine ⟨?_, ?_, fieldList_types hthrows⟩
  · cases d.returntype with
    | none => exact .inl rfl
    | some type => exact .inr ⟨type, rfl⟩
  · have htypes := fieldList_types hargs
    exact (setName_sameMembers hnamed).types htypes

theorem functionList_ok {fs fs' : List TFunction} {ds : List FunctionDecl}
    (h : functionList flags scopes fuel program scope fs ds = .ok fs')
    (hfs : ∀ f ∈ fs, FunctionTypes program scope f) : ∀ f ∈ fs', FunctionTypes program scope f := by
  induction ds generalizing fs with
  | nil =>
    rw [← Except.ok.inj h]
    exact hfs
  | cons d ds ih =>
    obtain ⟨f, hf, h⟩ := bind_ok h
    split at h
    · cases h
    refine ih h fun g hg => ?_
    rcases List.mem_append.mp hg with hg | hg
    · exact hfs g hg
    · rw [List.mem_singleton.mp hg]
      exact function_ok hf

theorem service_ok {name : String} {parent : Option String} {ds : List FunctionDecl}
    {s : TService} (h : service flags scopes fuel program scope name parent ds = .ok s) :
    s.name = name ∧ ∀ f ∈ s.functions, FunctionTypes program scope f := by
  obtain ⟨parent', -, h⟩ := bind_ok h
  obtain ⟨fs, hfs, h⟩ := bind_ok h
  obtain ⟨u, -, h⟩ := bind_ok h
  rw [← Except.ok.inj h]
  exact ⟨rfl, functionList_ok hfs (by simp)⟩

theorem enum_program {name : String} {values : List (String × Option Int64)} {e : TEnum}
    (h : enum program name values = .ok e) : e.program = program := by
  obtain ⟨constants, -, h⟩ := bind_ok h
  obtain ⟨u, -, h⟩ := bind_ok h
  rw [← Except.ok.inj h]

end Fields

end Sparsam.FieldLists
