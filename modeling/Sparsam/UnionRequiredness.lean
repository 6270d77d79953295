import Sparsam.FieldIdentifiers
import Sparsam.ListPairing
import Sparsam.SerializerRoundTrip
import Sparsam.UnionObject

set_option autoImplicit false

/-!
# The requiredness of union members

Of a union's members the parser makes the required ones optional; an unmarked one
stays `T_OPT_IN_REQ_OUT` and is printed without `:optional`, so the serializer
asks for it in every object of the union.
-/
namespace Sparsam.UnionRequiredness
open ListPairing ThriftTypes ThriftScope ThriftParser FieldLists SchemaLiteral FieldIdentifiers
open WireProtocol RubyRuntime FieldInfoCache SchemaEvaluation Loading SerializerWrite
open DecoderTyping ExceptionState SerializerConformance SerializerWire SerializerRoundTrip
open UnionObject

section Requiredness
variable {flags : Flags} {scopes : String → Scope} {fuel : ℕ} {program : TProgram} {scope : Scope}
variable {arglist : Bool}

theorem fieldListFrom_forall₂ {R : FieldDecl → TField → Prop}
    (hfield : ∀ d y f y', field flags scopes fuel program scope arglist y d = .ok (f, y') → R d f)
    {s s' : TStruct} {y y' : Int32} {ds : List FieldDecl} (hunion : s.isUnion = false)
    (h : fieldListFrom flags scopes fuel program scope arglist s y ds = .ok (s', y')) :
    ∃ fs, s'.members = s.members ++ fs ∧ List.Forall₂ R ds fs := by
  induction ds generalizing s y with
  | nil =>
    unfold fieldListFrom at h
    obtain ⟨rfl, -⟩ := Prod.mk.inj (Except.ok.inj h)
    exact ⟨[], (List.append_nil _).symm, .nil⟩
  | cons d ds ih =>
    unfold fieldListFrom at h
    obtain ⟨⟨f, z⟩, hf, h⟩ := bind_ok h
    obtain ⟨t, ht, h⟩ := bind_ok h
    obtain ⟨rfl, -, -⟩ := appendField_ok hunion ht
    obtain ⟨fs, heq, hfs⟩ := @ih { s with members := s.members ++ [f] } z hunion h
    refine ⟨f :: fs, ?_, .cons (hfield d y f z hf) hfs⟩
    rw [heq, List.append_assoc]
    rfl

theorem field_req {y y' : Int32} {d : FieldDecl} {f : TField}
    (h : field flags scopes fuel program scope arglist y d = .ok (f, y')) :
    f.req = fieldRequiredness arglist d.requiredness := by
  obtain ⟨doc, identifier, requiredness, type, name, value, xsdAttrs, annotations⟩ := d
  unfold field at h
  obtain ⟨z, -, h⟩ := bind_ok h
  split at h
  · cases h
  · obtain ⟨u, -, h⟩ := bind_ok h
    obtain ⟨v, -, h⟩ := bind_ok h
    obtain ⟨rfl, -⟩ := Prod.mk.inj (Except.ok.inj h)
    rfl

theorem validateUnionMember_members {s s' : TStruct} {f : TField} (hunion : s.isUnion = true)
    (hname : s.name ≠ "") (h : s.validateUnionMember f = .ok s') :
    s'.members = if f.req = .T_REQUIRED then (s.setReq f.key .T_OPTIONAL).members
      else s.members := by
  have hcount : ∀ r : TStruct,
      (if f.value.isSome then
        if 1 < r.membersWithValue + 1 then
          failure ("Error: Field " ++ f.name ++ " provides another default value for union " ++
            r.name)
        else pure { r with membersWithValue := r.membersWithValue + 1 }
      else pure r : Compile TStruct) = .ok s' → s'.members = r.members := by
    intro r h
    split at h
    · split at h
      · cases h
      · rw [← Except.ok.inj h]
    · rw [← Except.ok.inj h]
  unfold TStructOf.validateUnionMember at h
  rw [if_pos ⟨hunion, hname⟩] at h
  rw [hcount _ h]
  split <;> rfl

theorem validateEach_members {fs : List TField} {s s' : TStruct} (hunion : s.isUnion = true)
    (hname : s.name ≠ "") (h : fs.foldlM TStructOf.validateUnionMember s = .ok s') :
    s'.members = s.members.map fun g =>
      if ∃ f ∈ fs, f.key = g.key ∧ f.req = .T_REQUIRED then { g with req := .T_OPTIONAL }
      else g := by
  induction fs generalizing s with
  | nil =>
    obtain rfl := Except.ok.inj h
    simp
  | cons f fs ih =>
    obtain ⟨r, hr, h⟩ := bind_ok h
    have hsame := validateUnionMember_sameMembers hr
    have hmembers := validateUnionMember_members hunion hname hr
    rw [ih (hsame.isUnion.trans hunion) (hsame.name ▸ hname) h, hmembers]
    split
    · rename_i hreq
      change (s.members.map fun g => if g.key = f.key then { g with req := .T_OPTIONAL } else g).map
        _ = _
      rw [List.map_map]
      refine List.map_congr_left fun g _ => ?_
      by_cases hkey : g.key = f.key
      · simp [hkey, hreq]
      · have hne : ¬ f.key = g.key := fun heq => hkey heq.symm
        simp [hkey, hne]
    · rename_i hreq
      refine List.map_congr_left fun g _ => ?_
      simp [hreq]

theorem made_optional_iff {f : TField} {c : Prop} [Decidable c] (h : c ↔ f.req = .T_REQUIRED) :
    (if c then { f with req := .T_OPTIONAL } else f).req = .T_OPTIONAL ↔
      f.req ≠ .T_OPT_IN_REQ_OUT := by
  split
  · rename_i hc
    rw [h] at hc
    simp [hc]
  · rename_i hc
    rw [h] at hc
    cases hreq : f.req <;> simp_all

theorem struct_req {name : String} {ds : List FieldDecl} {s : TStruct} (hname : name ≠ "")
    (h : struct flags scopes fuel program scope true name ds = .ok s) :
    List.Forall₂ (fun (d : FieldDecl) (f : TField) =>
      f.req = .T_OPTIONAL ↔ d.requiredness ≠ none) ds s.members := by
  obtain ⟨r, hr, h⟩ := bind_ok h
  obtain ⟨u, -, h⟩ := bind_ok h
  obtain ⟨t, ht, h⟩ := bind_ok h
  have hkeys := (fieldList_accepted hr).distinct.keys
  obtain ⟨⟨r', y⟩, hlist, hr⟩ := bind_ok hr
  obtain rfl := Except.ok.inj hr
  obtain ⟨fs, hfs, hreq⟩ := fieldListFrom_forall₂
    (R := fun d f => f.req = fieldRequiredness false d.requiredness)
    (fun d y f y' => field_req) rfl hlist
  obtain ⟨fs', rfl, -⟩ := fieldListFrom_ok rfl hlist
  -- the struct has no name yet when it becomes a union
  unfold TStructOf.setUnion TStructOf.validateUnionMembers at ht
  rw [if_neg (by simp)] at ht
  obtain rfl := Except.ok.inj ht
  unfold TStructOf.setName TStructOf.validateUnionMembers at h
  rw [if_pos ⟨rfl, hname, rfl⟩] at h
  obtain ⟨v, hv, h⟩ := bind_ok h
  obtain rfl := Except.ok.inj h
  have hmembers := validateEach_members rfl hname hv
  change v.members = List.map _ fs' at hmembers
  change _ = _ ++ fs at hfs
  obtain rfl : fs' = fs := hfs
  change List.Forall₂ _ ds v.members
  rw [hmembers, List.forall₂_map_right_iff]
  refine forall₂_imp_mem hreq fun d _ f hf hdf => ?_
  have hsorted := sortedMembers_perm ({ program, name, members := fs', isUnion := true } : TStruct)
  have hexists : (∃ g ∈ TStructOf.sortedMembers
      ({ program, name, members := fs', isUnion := true } : TStruct),
        g.key = f.key ∧ g.req = .T_REQUIRED) ↔ f.req = .T_REQUIRED := by
    constructor
    · rintro ⟨g, hg, hkey, hreq⟩
      have hmem : g ∈ fs' := hsorted.mem_iff.mp hg
      rw [← List.inj_on_of_nodup_map hkeys hmem hf hkey]
      exact hreq
    · exact fun hreq => ⟨f, hsorted.mem_iff.mpr hf, rfl, hreq⟩
  refine (made_optional_iff hexists).trans ?_
  rw [hdf]
  cases d.requiredness with
  | none => simp [fieldRequiredness]
  | some keyword => cases keyword <;> simp [fieldRequiredness]

end Requiredness

section Kept
variable {α β κ κ' : Type} {R : α → β → Prop} {ka : α → κ} {kb : β → κ'}

/-- Lists that agree position by position, keys included, agree in their last elements. -/
theorem last_of_forall₂ {as : List α} {bs : List β} (h : List.Forall₂ R as bs)
    (hkeys : ∀ a b a' b', R a b → R a' b' → (ka a = ka a' ↔ kb b = kb b')) :
    (∀ a, SortedMap.Last ka as a → ∃ b, R a b ∧ SortedMap.Last kb bs b) ∧
      ∀ b, SortedMap.Last kb bs b → ∃ a, R a b ∧ SortedMap.Last ka as a := by
  induction h with
  | nil =>
    refine ⟨?_, ?_⟩
    · rintro a ⟨before, after, heq, -⟩
      simp at heq
    · rintro b ⟨before, after, heq, -⟩
      simp at heq
  | @cons a b as bs hab hrest ih =>
    refine ⟨fun x hx => ?_, fun y hy => ?_⟩
    · rcases SortedMap.last_cons.mp hx with ⟨rfl, hfresh⟩ | hx
      · refine ⟨b, hab, SortedMap.last_cons.mpr (.inl ⟨rfl, fun b' hb' heq => ?_⟩)⟩
        obtain ⟨a', ha', hab'⟩ := mem_of_forall₂ hrest hb'
        exact hfresh a' ha' ((hkeys a' b' x b hab' hab).mpr heq)
      · obtain ⟨y, hxy, hy⟩ := ih.1 x hx
        exact ⟨y, hxy, SortedMap.last_cons.mpr (.inr hy)⟩
    · rcases SortedMap.last_cons.mp hy with ⟨rfl, hfresh⟩ | hy
      · refine ⟨a, hab, SortedMap.last_cons.mpr (.inl ⟨rfl, fun a' ha' heq => ?_⟩)⟩
        obtain ⟨b', hb', hab'⟩ := mem_of_forall₂ hrest.flip ha'
        exact hfresh b' hb' ((hkeys a' b' a y hab' hab).mp heq)
      · obtain ⟨x, hxy, hx⟩ := ih.2 y hy
        exact ⟨x, hxy, SortedMap.last_cons.mpr (.inr hx)⟩

end Kept

abbrev Row := ℤ × FieldDecl

def rows (flags : Flags) (ds : List FieldDecl) : List Row := (fieldIds flags ds).zip ds

/-- No later field has an id that agrees with this one's in the last 16 bits. -/
def Kept (flags : Flags) (ds : List FieldDecl) (r : Row) : Prop :=
  SortedMap.Last (fun r : Row => r.1 % 2 ^ 16) (rows flags ds) r

/-- The field can be the only one set: it is kept, no other kept one is unmarked, and
    none is called as the tag is. No field at all is called as the method is. -/
structure CanStandAlone (flags : Flags) (ds : List FieldDecl) (r : Row) : Prop where
  kept : Kept flags ds r
  unmarked : ∀ other, Kept flags ds other → other.2.requiredness = none → other = r
  untagged : ∀ other, Kept flags ds other → other.2.name ≠ "setfield"
  callable : ∀ d ∈ ds, d.name ≠ "serialize"

structure EntryOf (r : Row) (e : Int16 × FieldInfo) : Prop where
  id : e.1 = Int16.ofInt (Int32.ofInt r.1).toInt
  symName : e.2.symName = r.2.name
  isOptional : e.2.isOptional = true ↔ r.2.requiredness ≠ none

section Table
variable {flags : Flags} {scopes : String → Scope} {fuel : ℕ} {program : TProgram} {scope : Scope}

theorem tableEntries_forall₂ {scopes : String → Scope} {env : Environment} {ids : List ℤ}
    {ds : List FieldDecl} {fs : List TField} {fis : List FieldInfo}
    (hnames : ∀ d ∈ ds, IsIdentifier d.name)
    (hkeys : fs.map TFieldOf.key = ids.map Int32.ofInt)
    (hname : fs.map TFieldOf.name = ds.map FieldDecl.name)
    (hreq : List.Forall₂ (fun (d : FieldDecl) (f : TField) =>
      f.req = .T_OPTIONAL ↔ d.requiredness ≠ none) ds fs)
    (hfis : List.Forall₂ (MemberInfo scopes env) fs fis) :
    List.Forall₂ EntryOf (ids.zip ds) (tableEntries (fs.zip fis)) := by
  induction hreq generalizing ids fis with
  | nil =>
    rw [List.zip_nil_right]
    exact .nil
  | @cons d f ds fs hdf _ ih =>
    cases hfis with
    | @cons _ fi _ fis hfi hfis =>
      cases ids with
      | nil => cases hkeys
      | cons id ids =>
        obtain ⟨hkey, hkeys⟩ := List.cons.inj hkeys
        obtain ⟨hdname, hname⟩ := List.cons.inj hname
        have hd := hnames d (by simp)
        refine .cons ⟨?_, ?_, ?_⟩ (ih (fun d hd => hnames d (by simp [hd])) hkeys hname hfis)
        · exact congrArg (fun k : Int32 => Int16.ofInt k.toInt) hkey
        · exact (memberInfo_symName hfi (hdname ▸ hd)).trans hdname
        · change fi.isOptional = true ↔ _
          rw [hfi.isOptional, decide_eq_true_iff, hdf]

theorem entries_forall₂ {name : String} {ds : List FieldDecl} {s : TStruct} (hname : name ≠ "")
    (hnames : ∀ d ∈ ds, IsIdentifier d.name)
    (accepted : struct flags scopes fuel program scope true name ds = .ok s)
    {scopes' : String → Scope} {env : Environment} {fis : List FieldInfo}
    (hfis : List.Forall₂ (MemberInfo scopes' env) s.members fis) :
    List.Forall₂ EntryOf (rows flags ds) (tableEntries (s.members.zip fis)) := by
  have h := struct_accepted accepted
  exact tableEntries_forall₂ hnames h.keys h.names (struct_req hname accepted) hfis

/-- The entries of the table are those of the fields that are kept. -/
structure TableOf (flags : Flags) (ds : List FieldDecl) (m : FieldInfoMap) : Prop where
  entry : ∀ r, Kept flags ds r → ∃ e ∈ m.entries, EntryOf r e
  row : ∀ e ∈ m.entries, ∃ r, Kept flags ds r ∧ EntryOf r e

theorem tableOf {ds : List FieldDecl} {es : List (Int16 × FieldInfo)}
    (h : List.Forall₂ EntryOf (rows flags ds) es) :
    TableOf flags ds (SortedMap.empty.insertAll es) := by
  have hmem : ∀ e, e ∈ (SortedMap.empty.insertAll es).entries ↔ SortedMap.Last Prod.fst es e := by
    intro e
    rw [SortedMap.mem_insertAll_iff]
    simp [SortedMap.empty]
  have hkeys : ∀ (r : Row) e (r' : Row) e', EntryOf r e → EntryOf r' e' →
      (r.1 % 2 ^ 16 = r'.1 % 2 ^ 16 ↔ e.1 = e'.1) := by
    intro r e r' e' hr hr'
    rw [hr.id, hr'.id, ofInt16_eq_iff]
  obtain ⟨hentry, hrow⟩ := last_of_forall₂ h hkeys
  refine ⟨fun r hr => ?_, fun e he => ?_⟩
  · obtain ⟨e, hre, he⟩ := hentry r hr
    exact ⟨e, (hmem e).mpr he, hre⟩
  · obtain ⟨r, hre, hr⟩ := hrow e ((hmem e).mp he)
    exact ⟨r, hr, hre⟩

end Table

/-- A union object whose one set field is `f`. -/
def unionObject (oid : ℕ) (klass : VALUE) (eigen : Bool) (f : ID) (v : Value) : Value :=
  .obj oid klass eigen (ivarsOf (some (f, v)))

/-- The object is written with this one field and nothing else, at top level and
    wherever a definition of the schema names its class. -/
structure WritesField (sch : Schema) (klass : VALUE) (x : Value) (field : Int16 × WireValue) :
    Prop where
  nested : ∀ fi : FieldInfo, fi.Generated sch.Cached → fi.ftype = .STRUCT → fi.klass = klass →
    ∀ outer fieldSym out, writeAny sch outer fieldSym .STRUCT fi x out =
      .ok () (out ++ (WireValue.struct [field]).tokens)
  topLevel : ∀ {σ : Type} (P : TProtocol σ),
    callSerialize P sch x = .ok (.bytes (P.encode (WireValue.struct [field]).tokens))

def WritesOne (sch : Schema) (klass : VALUE) (oid : ℕ) (eigen : Bool) (f : ID) (v : Value) :
    Prop :=
  ∃ fields, sch.fieldInfoMap klass = some fields ∧ ∃ e ∈ fields.entries, e.2.symName = f ∧
    WritesField sch klass (unionObject oid klass eigen f v) (e.1, wireOf sch e.2 v)

section Object
variable {sch : Schema} {klass : VALUE} {fields : FieldInfoMap} {f : ID} {v : Value}

theorem ivarGet_ivarsOf (name : ID) : ivarGet (ivarsOf (some (f, v))) ("@" ++ name) =
    if name = "setfield" then .sym f else if name = f then v else .nil := by
  have htag : ("@setfield" : ID) = "@" ++ name ↔ name = "setfield" := by
    change "@" ++ "setfield" = "@" ++ name ↔ _
    rw [String.append_right_inj]
    exact eq_comm
  have hfield : "@" ++ f = "@" ++ name ↔ name = f := by
    rw [String.append_right_inj]
    exact eq_comm
  simp only [ivarsOf, ivarGet, htag, hfield]

theorem ivarGet_entry (hfields : sch.fieldInfoMap klass = some fields)
    (htag : ∀ e ∈ fields.entries, e.2.symName ≠ "setfield") {e : Int16 × FieldInfo}
    (he : e ∈ fields.entries) : ivarGet (ivarsOf (some (f, v))) e.2.ivarName =
      if e.2.symName = f then v else .nil := by
  rw [sch.ivarName klass fields hfields e he, ivarGet_ivarsOf, if_neg (htag e he)]

theorem conforms_unionObject {fi : FieldInfo} (htype : fi.ftype = .STRUCT)
    (hfields : sch.fieldInfoMap fi.klass = some fields) (oid : ℕ) (eigen : Bool)
    (hv : v ≠ .nil) (htag : ∀ e ∈ fields.entries, e.2.symName ≠ "setfield")
    (hrequired : ∀ e ∈ fields.entries, e.2.isOptional = false → e.2.symName = f)
    (hconforms : ∀ e ∈ fields.entries, e.2.symName = f → Conforms sch e.2 v) :
    Conforms sch fi (unionObject oid fi.klass eigen f v) := by
  have hget := fun e he => ivarGet_entry (f := f) (v := v) hfields htag (e := e) he
  refine .struct fi oid eigen _ fields htype hfields (fun e he hopt => ?_) fun e he hne => ?_
  · rw [hget e he, if_pos (hrequired e he hopt)]
    exact hv
  · rw [hget e he] at hne ⊢
    split at hne
    · rename_i hname
      rw [if_pos hname]
      exact hconforms e he hname
    · exact absurd rfl hne

theorem writeAny_of_conforms {fi : FieldInfo} (hfi : fi.Generated sch.Cached) {x : Value}
    (h : Conforms sch fi x) (outer : RClass) (fieldSym : ID) (out : List Token) :
    writeAny sch outer fieldSym fi.ftype fi x out = .ok () (out ++ (wireOf sch fi x).tokens) := by
  have hchecks := decided x outer fieldSym fi hfi out
  have hwrites := writesWire h outer fieldSym out
  unfold Spec at hchecks hwrites
  cases hrun : writeAny sch outer fieldSym fi.ftype fi x out with
  | ok u t =>
    rw [hrun] at hwrites
    exact congrArg (EStateM.Result.ok ()) hwrites
  | error e t =>
    rw [hrun] at hchecks
    exact absurd (passes_of_conforms h) hchecks.2.2

theorem wireOf_unionObject {fi : FieldInfo} (hfields : sch.fieldInfoMap fi.klass = some fields)
    (oid : ℕ) (eigen : Bool) (hv : v ≠ .nil)
    (htag : ∀ e ∈ fields.entries, e.2.symName ≠ "setfield") {e : Int16 × FieldInfo}
    (he : e ∈ fields.entries) (hname : e.2.symName = f) :
    wireOf sch fi (unionObject oid fi.klass eigen f v) = .struct [(e.1, wireOf sch e.2 v)] := by
  have hget := fun e he => ivarGet_entry (f := f) (v := v) hfields htag (e := e) he
  rw [unionObject, wireOf, hfields]
  refine congrArg WireValue.struct (filterMap_eq_singleton
    (List.Nodup.of_map _ (sch.names _ fields hfields)) he ?_ fun e' he' hne => ?_)
  · rw [wireIvar_eq, hget e he, if_pos hname, if_neg (by rwa [Value.isNil_eq_true])]
  · have hother : e'.2.symName ≠ f := fun heq => hne
      (List.inj_on_of_nodup_map (sch.names _ fields hfields) he' he (heq.trans hname.symm))
    rw [wireIvar_eq, hget e' he', if_neg hother, if_pos (by rw [Value.isNil_eq_true])]

theorem of_conforms {oid : ℕ} {eigen : Bool} (hfields : sch.fieldInfoMap klass = some fields)
    (h : Conforms sch (classInfo klass) (unionObject oid klass eigen f v)) :
    (∀ e ∈ fields.entries, e.2.symName ≠ "setfield") ∧
      ∀ e ∈ fields.entries, e.2.isOptional = false → e.2.symName = f := by
  obtain ⟨hrequired, hheld⟩ : (∀ e ∈ fields.entries, e.2.isOptional = false →
      ivarGet (ivarsOf (some (f, v))) e.2.ivarName ≠ .nil) ∧
      ∀ e ∈ fields.entries, ivarGet (ivarsOf (some (f, v))) e.2.ivarName ≠ .nil →
        Conforms sch e.2 (ivarGet (ivarsOf (some (f, v))) e.2.ivarName) := by
    unfold unionObject at h
    generalize hfi : classInfo klass = fi at h
    cases h with
    | struct _ _ _ _ fields' _ table required held =>
      obtain rfl := Option.some.inj (hfields.symm.trans table)
      exact ⟨required, held⟩
  have htag : ∀ e ∈ fields.entries, e.2.symName ≠ "setfield" := by
    intro e he hname
    have hget : ivarGet (ivarsOf (some (f, v))) e.2.ivarName = .sym f := by
      rw [sch.ivarName klass fields hfields e he, ivarGet_ivarsOf, if_pos hname]
    have hsym := hheld e he (by rw [hget]; exact nofun)
    rw [hget] at hsym
    cases hsym
  refine ⟨htag, fun e he hopt => ?_⟩
  have hset := hrequired e he hopt
  rw [ivarGet_entry hfields htag he] at hset
  by_contra hname
  exact hset (if_neg hname)

end Object

section Main
variable {flags : Flags} {scopes : String → Scope} {fuel : ℕ} {program : TProgram} {scope : Scope}

theorem rows_nodup {ds : List FieldDecl} {s : TStruct} (h : Accepted flags ds s) :
    ((rows flags ds).map fun r => r.2.name).Nodup := by
  have hids : (fieldIds flags ds).length = s.members.length := by
    have hkeys := congrArg List.length h.keys
    rw [List.length_map, List.length_map] at hkeys
    exact hkeys.symm
  have hnames : s.members.length = ds.length := by
    have hnames := congrArg List.length h.names
    rwa [List.length_map, List.length_map] at hnames
  have hsnd : (rows flags ds).map Prod.snd = ds :=
    List.map_snd_zip (by rw [hids, hnames])
  have hmap := congrArg (List.map FieldDecl.name) hsnd
  rw [List.map_map] at hmap
  change ((rows flags ds).map (FieldDecl.name ∘ Prod.snd)).Nodup
  rw [hmap, ← h.names]
  exact h.distinct.names

theorem writesOne_of_table {sch : Schema} {klass : VALUE} {fields : FieldInfoMap}
    (hfields : sch.fieldInfoMap klass = some fields) {ds : List FieldDecl}
    (htableOf : TableOf flags ds fields) (hnames : ((rows flags ds).map fun r => r.2.name).Nodup)
    {c : RubyClass} (hclass : sch.findClass klass = some c)
    (hmembers : c.fieldNames = ds.map FieldDecl.name)
    {r : Row} (hr : r ∈ rows flags ds) {v : Value} (hv : v ≠ .nil)
    (hconforms : ∀ e ∈ fields.entries, e.2.symName = r.2.name → Conforms sch e.2 v)
    (oid : ℕ) (eigen : Bool) :
    WritesOne sch klass oid eigen r.2.name v ↔ CanStandAlone flags ds r := by
  have hunique : ∀ r' ∈ rows flags ds, r'.2.name = r.2.name → r' = r :=
    fun r' hr' heq => List.inj_on_of_nodup_map hnames hr' hr heq
  have hkeptMem : ∀ r', Kept flags ds r' → r' ∈ rows flags ds := by
    rintro r' ⟨before, after, heq, -⟩
    rw [heq]
    simp
  constructor
  · rintro ⟨fields', hfields', e, he, hsym, hwrites⟩
    obtain rfl := Option.some.inj (hfields.symm.trans hfields')
    have hcached : sch.Cached klass := Option.isSome_iff_exists.mpr ⟨fields, hfields⟩
    have hgenerated := generated_classInfo sch hcached
    have hpass := (decided (unionObject oid klass eigen r.2.name v) (.user klass) ""
      (classInfo klass) hgenerated []).of_ok
        (hwrites.nested _ hgenerated rfl rfl (.user klass) "" [])
    obtain ⟨htag, hrequired⟩ := of_conforms hfields (conforms_of_passes hgenerated hpass)
    refine ⟨?_, fun other hother hnone => ?_, fun other hother hset => ?_, fun d hd hcall => ?_⟩
    · obtain ⟨r', hr', hentry⟩ := htableOf.row e he
      rw [← hunique r' (hkeptMem r' hr') (hentry.symName.symm.trans hsym)]
      exact hr'
    · obtain ⟨e', he', hentry⟩ := htableOf.entry other hother
      have hopt : e'.2.isOptional = false := by
        rw [← Bool.not_eq_true, hentry.isOptional]
        simpa using hnone
      exact hunique other (hkeptMem other hother)
        (hentry.symName.symm.trans (hrequired e' he' hopt))
    · obtain ⟨e', he', hentry⟩ := htableOf.entry other hother
      exact htag e' he' (hentry.symName.trans hset)
    · have hfield : "serialize" ∈ c.fieldNames := by
        rw [hmembers, ← hcall]
        exact List.mem_map_of_mem hd
      exact callSerialize_ne_bytes BinaryProtocol.binaryProtocol hclass hfield _
        (hwrites.topLevel BinaryProtocol.binaryProtocol)
  · intro h
    obtain ⟨e, he, hentry⟩ := htableOf.entry r h.kept
    have htag : ∀ e ∈ fields.entries, e.2.symName ≠ "setfield" := by
      intro e' he' hset
      obtain ⟨r', hr', hentry'⟩ := htableOf.row e' he'
      exact h.untagged r' hr' (hentry'.symName.symm.trans hset)
    have hrequired : ∀ e ∈ fields.entries, e.2.isOptional = false → e.2.symName = r.2.name := by
      intro e' he' hopt
      obtain ⟨r', hr', hentry'⟩ := htableOf.row e' he'
      have hnone : r'.2.requiredness = none := by
        by_contra hsome
        rw [hentry'.isOptional.mpr hsome] at hopt
        cases hopt
      rw [hentry'.symName, h.unmarked r' hr' hnone]
    have hcached : sch.Cached klass := Option.isSome_iff_exists.mpr ⟨fields, hfields⟩
    have hrun : ∀ fi : FieldInfo, fi.Generated sch.Cached → fi.ftype = .STRUCT →
        fi.klass = klass → ∀ outer fieldSym out,
          writeAny sch outer fieldSym .STRUCT fi (unionObject oid klass eigen r.2.name v) out =
            .ok () (out ++ (WireValue.struct [(e.1, wireOf sch e.2 v)]).tokens) := by
      rintro fi hfi htype rfl outer fieldSym out
      have hobject := conforms_unionObject htype hfields oid eigen hv htag hrequired
        hconforms
      have hwritten := writeAny_of_conforms hfi hobject outer fieldSym out
      rw [htype, wireOf_unionObject hfields oid eigen hv htag he hentry.symName] at hwritten
      exact hwritten
    refine ⟨fields, hfields, e, he, hentry.symName, hrun, fun P => ?_⟩
    have htop := hrun (classInfo klass) (generated_classInfo sch hcached) rfl rfl
      (.user klass) "" []
    have hmethod : ∀ c ∈ sch.findClass klass, "serialize" ∉ c.fieldNames := by
      intro c' hc' hfield
      obtain rfl := Option.some.inj (hclass.symm.trans hc')
      rw [hmembers] at hfield
      obtain ⟨d, hd, hcall⟩ := List.mem_map.mp hfield
      exact h.callable d hd hcall
    unfold unionObject at htop ⊢
    rw [callSerialize_method P hmethod]
    unfold serialize
    simp only [real_classOf_obj]
    rw [serializerWriteStruct_eq sch oid klass eigen _ (.user klass) ""]
    rw [htop, List.nil_append]
    rfl

theorem memberNames {scopes : String → Scope} {env : Environment} {fs : List TField}
    {defs : List (Value × Value)} {fis : List FieldInfo}
    (hmade : List.Forall₂ (fun d fi => createFieldInfo d.2 = some fi) defs fis)
    (hfis : List.Forall₂ (MemberInfo scopes env) fs fis) (hnames : ∀ f ∈ fs, IsIdentifier f.name) :
    fs.map TFieldOf.name = defs.map fun e => fieldDefName e.2 := by
  induction hfis generalizing defs with
  | nil =>
    cases hmade
    rfl
  | @cons f fi fs fis hfi _ ih =>
    obtain ⟨hf, hfs⟩ := List.forall_mem_cons.mp hnames
    cases hmade with
    | cons hd hds =>
      rw [List.map_cons, List.map_cons, ih hds hfs, ← memberInfo_symName hfi hf,
        createFieldInfo_symName hd]

theorem tableOf_loaded {name : String} {ds : List FieldDecl} {s : TStruct} (hname : name ≠ "")
    (hnames : ∀ d ∈ ds, IsIdentifier d.name)
    (accepted : struct flags scopes fuel program scope true name ds = .ok s)
    {scopes' : String → Scope} {fuel' : ℕ} {lit : Literal}
    (generated : generateFieldDefns scopes' fuel' s = .ok lit) {env : Environment}
    {defs : List (Value × Value)} (evaluated : env.eval lit = some (.hash defs))
    {p : Loading.Program} {klass : VALUE} {c : RubyClass} (hclass : p.findClass klass = some c)
    (loaded : c.fields = defs) :
    (∃ fields, p.schema.fieldInfoMap klass = some fields ∧ TableOf flags ds fields) ∧
      c.fieldNames = ds.map FieldDecl.name := by
  have haccepted := struct_accepted accepted
  obtain ⟨defs', fis, hdefs, hfis, -, hmade, htable⟩ :=
    eval_fieldDefns haccepted.distinct.keys generated evaluated
  obtain rfl : defs = defs' := by simpa using hdefs
  have hidentifiers : ∀ f ∈ s.members, IsIdentifier f.name := by
    intro f hf
    have hmem : f.name ∈ ds.map FieldDecl.name := by
      rw [← haccepted.names]
      exact List.mem_map_of_mem hf
    obtain ⟨d, hd, heq⟩ := List.mem_map.mp hmem
    rw [← heq]
    exact hnames d hd
  refine ⟨⟨_, ?_, tableOf (entries_forall₂ hname hnames accepted hfis)⟩, ?_⟩
  · rw [schema_fields p hclass, loaded, htable]
  · rw [← haccepted.names]
    unfold RubyClass.fieldNames
    rw [loaded]
    exact (memberNames hmade hfis hidentifiers).symm

/-- An object of an accepted union is written with its one field exactly when the
    field can stand alone. -/
theorem writesOne_iff_canStandAlone {name : String} {ds : List FieldDecl} {s : TStruct}
    (hname : IsIdentifier name) (hnames : ∀ d ∈ ds, IsIdentifier d.name)
    (accepted : struct flags scopes fuel program scope true name ds = .ok s)
    {scopes' : String → Scope} {fuel' : ℕ} {lit : Literal}
    (generated : generateFieldDefns scopes' fuel' s = .ok lit) {env : Environment}
    {defs : List (Value × Value)} (evaluated : env.eval lit = some (.hash defs))
    {p : Loading.Program} {klass : VALUE} {c : RubyClass} (hclass : p.findClass klass = some c)
    (loaded : c.fields = defs) {r : Row} (hr : r ∈ rows flags ds) {v : Value} (hv : v ≠ .nil)
    (hconforms : ∀ fields, p.schema.fieldInfoMap klass = some fields →
      ∀ e ∈ fields.entries, e.2.symName = r.2.name → Conforms p.schema e.2 v)
    (oid : ℕ) (eigen : Bool) :
    WritesOne p.schema klass oid eigen r.2.name v ↔ CanStandAlone flags ds r := by
  have haccepted := struct_accepted accepted
  obtain ⟨⟨fields, hfields, htable⟩, hmembers⟩ := tableOf_loaded hname.1 hnames accepted generated
    evaluated hclass loaded
  exact writesOne_of_table hfields htable (rows_nodup haccepted) hclass hmembers hr hv
    (hconforms fields hfields) oid eigen

end Main

section Examples

/-- The union `U` of these fields, from its declaration to its class; its fields hold 7. -/
structure LoadedUnion (ds : List FieldDecl) (s : TStruct) (lit : Literal)
    (defs : List (Value × Value)) (p : Loading.Program) (c : RubyClass) : Prop where
  accepted : struct {} (fun _ => {}) 1 ⟨"a.thrift", []⟩ {} true "U" ds = .ok s
  generated : generateFieldDefns (fun _ => {}) 1 s = .ok lit
  evaluated : bareEnvironment.eval lit = some (.hash defs)
  isClass : p.findClass 8 = some c
  loaded : c.fields = defs
  seven : ∀ fields, p.schema.fieldInfoMap 8 = some fields → ∀ e ∈ fields.entries,
    Conforms p.schema e.2 (.int 7)

def loadsUnion (ds : List FieldDecl) : Bool :=
  match struct {} (fun _ => {}) 1 ⟨"a.thrift", []⟩ {} true "U" ds with
  | .error _ => false
  | .ok s =>
    match generateFieldDefns (fun _ => {}) 1 s with
    | .error _ => false
    | .ok lit =>
      match bareEnvironment.eval lit with
      | some (.hash defs) =>
        (loadClasses [(8, ⟨"U", .union, defs⟩)]).any fun g => globalsLoaded g &&
          g.klassCache.all fun c => c.2.entries.all fun e => inWidth e.2.ftype 7
      | _ => false

theorem loadedUnion {ds : List FieldDecl} (h : loadsUnion ds = true) :
    ∃ s lit defs p c, LoadedUnion ds s lit defs p c := by
  unfold loadsUnion at h
  split at h
  · cases h
  rename_i s hs
  split at h
  · cases h
  rename_i lit hlit
  split at h
  · rename_i defs hdefs
    rw [Option.any_eq_true] at h
    obtain ⟨g, hg, h⟩ := h
    rw [Bool.and_eq_true] at h
    obtain ⟨hloaded, hseven⟩ := h
    let p : Loading.Program := ⟨[(8, ⟨"U", .union, defs⟩)], g, hg, hloaded⟩
    refine ⟨s, lit, defs, p, ⟨"U", .union, defs⟩, hs, hlit, hdefs, rfl, rfl, ?_⟩
    intro fields hfields e he
    have hmem : (8, fields) ∈ g.klassCache := SortedMap.mem_of_lookup hfields
    rw [List.all_eq_true] at hseven
    have hall := hseven _ hmem
    rw [List.all_eq_true] at hall
    exact .int e.2 7 (hall e he)
  · cases h

def unmarkedField : FieldDecl :=
  { identifier := some 1, type := .baseType .TYPE_I32 false, name := "a" }

def optionalField : FieldDecl :=
  { identifier := some 2, requiredness := some .optional, type := .baseType .TYPE_I32 false,
    name := "b" }

/-- `union U { 1: i32 a, 2: optional i32 b }` -/
def mixedFields : List FieldDecl := [unmarkedField, optionalField]

theorem rows_mixed : rows {} mixedFields = [(1, unmarkedField), (2, optionalField)] := rfl

theorem kept_mixed {r : Row} : Kept {} mixedFields r ↔
    r = (1, unmarkedField) ∨ r = (2, optionalField) := by
  unfold Kept
  rw [rows_mixed, SortedMap.last_cons, SortedMap.last_cons]
  have hnil : ¬ SortedMap.Last (fun r : Row => r.1 % 2 ^ 16) [] r := by
    rintro ⟨before, after, heq, -⟩
    simp at heq
  simp only [hnil, or_false, List.forall_mem_singleton]
  constructor
  · exact fun h => h.imp And.left And.left
  · rintro (rfl | rfl)
    · exact .inl ⟨rfl, by decide⟩
    · exact .inr ⟨rfl, nofun⟩

theorem unmarked_writesOne : ∃ s lit defs p c, LoadedUnion mixedFields s lit defs p c ∧
    WritesOne p.schema 8 0 false "a" (.int 7) := by
  obtain ⟨s, lit, defs, p, c, h⟩ := loadedUnion (by decide +kernel : loadsUnion mixedFields = true)
  refine ⟨s, lit, defs, p, c, h, ?_⟩
  refine (writesOne_iff_canStandAlone (r := (1, unmarkedField)) (v := .int 7) (by decide +kernel)
    (by decide +kernel) h.accepted h.generated h.evaluated h.isClass h.loaded (by simp [rows_mixed])
    nofun (fun fields hf e he _ => h.seven fields hf e he) 0 false).mpr ⟨?_, ?_, ?_, by decide⟩
  · exact kept_mixed.mpr (.inl rfl)
  · intro other hother hnone
    rcases kept_mixed.mp hother with rfl | rfl
    · rfl
    · cases hnone
  · intro other hother
    rcases kept_mixed.mp hother with rfl | rfl <;> decide

/-- `U.new(:b, 7)` is no object that serialize accepts: `a` is missing. -/
theorem optional_not_writesOne : ∃ s lit defs p c, LoadedUnion mixedFields s lit defs p c ∧
    ¬ WritesOne p.schema 8 0 false "b" (.int 7) := by
  obtain ⟨s, lit, defs, p, c, h⟩ := loadedUnion (by decide +kernel : loadsUnion mixedFields = true)
  refine ⟨s, lit, defs, p, c, h, fun hwrites => ?_⟩
  obtain ⟨⟨fields, hfields, htable⟩, hmembers⟩ := tableOf_loaded (by decide) (by decide +kernel)
    h.accepted h.generated h.evaluated h.isClass h.loaded
  have halone := (writesOne_of_table (r := (2, optionalField)) (v := .int 7) hfields htable
    (by decide +kernel) h.isClass hmembers (by simp [rows_mixed]) nofun
    (fun e he _ => h.seven fields hfields e he) 0 false).mp hwrites
  have hsame := halone.unmarked (1, unmarkedField) (kept_mixed.mpr (.inl rfl)) rfl
  cases hsame

end Examples

end Sparsam.UnionRequiredness
