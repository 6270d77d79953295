import Sparsam.FieldLists
import Sparsam.ProgramTree

set_option autoImplicit false

/-!
# What the names of a program resolve to

A name in a scope was declared by the file itself or by a file it includes; a
name without an entry becomes a forward typedef of the file it stands in. So
every type of a program is the reading of some syntax in some file, and every
binding a scope offers is a declaration of a file that can be seen from it.
-/
namespace Sparsam.NameResolution
open ThriftTypes ThriftScope ThriftParser FieldLists IncludeProcessing IncludeTermination
open IncludeCoverage ProgramTree

section Declared
variable (files : String → Option IdlFile) (includeFile : String → String → String)

def definitionsOf (p : String) : List Definition :=
  match files p with
  | none => []
  | some file => file.definitions

def programOf (p : String) : TProgram :=
  { path := p
    namespaces := mapOfEntries (match files p with | none => [] | some file => file.namespaces) }

def objectName? : Definition → Option String
  | .struct _ name _ | .xception name _ => some name
  | _ => none

/-- The name `x` in the file `p` is what `q` declares as `y`. -/
inductive Visible (p : String) : String → String → String → Prop where
  | own (x : String) : Visible p x p x
  | included {q : String} (y : String) (h : Includes files includeFile p q) :
      Visible p (programName q ++ "." ++ y) q y

mutual
/-- What the syntax of a type in the file `p` may have been read as. -/
inductive Denotes : String → FieldType → ThriftType → Prop where
  | baseType (p : String) (b : TBase) (bin : Bool) : Denotes p (.baseType b bin) (.baseType b bin)
  | list {p : String} {e : FieldType} {t : ThriftType} (h : Denotes p e t) :
      Denotes p (.list e) (.list t)
  | set {p : String} {e : FieldType} {t : ThriftType} (h : Denotes p e t) :
      Denotes p (.set e) (.set t)
  | map {p : String} {k v : FieldType} {t u : ThriftType} (hk : Denotes p k t)
      (hv : Denotes p v u) : Denotes p (.map k v) (.map t u)
  | forward {p : String} {info : TProgram} (x : String) (h : info.path = p) :
      Denotes p (.identifier x) (.forwardTypedef info x)
  | bound {p x q y : String} {t : ThriftType} (hx : Visible files includeFile p x q y)
      (ht : Declares q y t) : Denotes p (.identifier x) t

/-- The file `p` declares `y` as this type. -/
inductive Declares : String → String → ThriftType → Prop where
  | typedef {p y : String} {info : TProgram} {type : FieldType} {t : ThriftType}
      (hy : .typedef type y ∈ definitionsOf files p) (ht : Denotes p type t) :
      Declares p y (.typedef info y t)
  | senum (p y : String) (info : TProgram) :
      Declares p y (.typedef info y (.baseType .TYPE_STRING false))
  | enum {p : String} {e : TEnum} (he : e.program = programOf files p) :
      Declares p e.name (.enum e)
  | object {p : String} {s : TStruct} {d : Definition} (types : TField → FieldType)
      (hd : d ∈ definitionsOf files p) (hname : objectName? d = some s.name)
      (hs : s.program = programOf files p) (ht : ∀ f ∈ s.members, Denotes p (types f) f.type) :
      Declares p s.name (.struct s)
end

/-- Every name in the scope of the file is visible there. -/
def Sound (p : String) (sc : Scope) : Prop :=
  ∀ e ∈ sc.types, ∃ q y, Visible files includeFile p e.1 q y ∧
    Declares files includeFile q y e.2

/-- The typedefs of a name to a name of the same file. -/
def Alias (p y x : String) : Prop := .typedef (.identifier x) y ∈ definitionsOf files p

end Declared

section Types

def parts : ThriftType → List ThriftType
  | .list e => .list e :: parts e
  | .set e => .set e :: parts e
  | .map k v => .map k v :: (parts k ++ parts v)
  | .typedef p s t => .typedef p s t :: parts t
  | t => [t]

def functionTypes (f : TFunction) : List ThriftType :=
  f.returntype :: (f.arglist.members ++ f.xceptions.members).map TFieldOf.type

def entryTypes (info : TProgram) : Entry → List ThriftType
  | .const c => [c.type]
  | .typedef name type => [.typedef info name type]
  | .enum e => [.enum e]
  | .object s => .struct s :: s.members.map TFieldOf.type
  | .service s => s.functions.flatMap functionTypes

/-- The types of a program: its typedefs, enums, structs and exceptions, and those of
    its constants, fields and functions. -/
def programTypes (p : Program) : List ThriftType :=
  p.consts.map TConst.type ++ p.typedefs.map (fun d => .typedef p.info d.1 d.2) ++
    p.enums.map .enum ++ p.objects.flatMap (fun s => .struct s :: s.members.map TFieldOf.type) ++
    p.services.flatMap fun s => s.functions.flatMap functionTypes

theorem programTypes_add {p : Program} {e : Entry} {t : ThriftType}
    (h : t ∈ programTypes (p.add e)) : t ∈ programTypes p ∨ t ∈ entryTypes p.info e := by
  cases e <;>
    simp only [Program.add, programTypes, entryTypes, List.map_append, List.flatMap_append,
      List.mem_append, List.map_cons, List.map_nil, List.flatMap_cons, List.flatMap_nil,
      List.append_nil] at h ⊢ <;>
    tauto

end Types

section Soundness
variable {files : String → Option IdlFile} {includeFile : String → String → String}
variable {flags : Flags} {scopes : String → Scope} {fuel : ℕ} {includes : List Program}

theorem fieldType_denotes {p : String} {info : TProgram} {sc : Scope} (hpath : info.path = p)
    (hsound : Sound files includeFile p sc) (type : FieldType) :
    Denotes files includeFile p type (fieldType info sc type) := by
  induction type with
  | baseType b bin => exact .baseType p b bin
  | list e ih => exact .list ih
  | set e ih => exact .set ih
  | map k v ihk ihv => exact .map ihk ihv
  | identifier x =>
    unfold fieldType Scope.getType
    cases hfound : sc.types.lookup x with
    | none => exact .forward x hpath
    | some t =>
      obtain ⟨q, y, hx, ht⟩ := hsound _ (SortedMap.mem_of_lookup hfound)
      exact .bound hx ht

def Written (files : String → Option IdlFile) (includeFile : String → String → String)
    (p : String) (t : ThriftType) : Prop := ∃ type, Denotes files includeFile p type t

theorem written_fieldType {p : String} {info : TProgram} {sc : Scope} (hpath : info.path = p)
    (hsound : Sound files includeFile p sc) {t : ThriftType}
    (h : ∃ type, t = fieldType info sc type) : Written files includeFile p t := by
  obtain ⟨type, rfl⟩ := h
  exact ⟨type, fieldType_denotes hpath hsound type⟩

theorem written_declared {p y : String} {t : ThriftType} (h : Declares files includeFile p y t) :
    Written files includeFile p t :=
  ⟨.identifier y, .bound (.own y) h⟩

/-- What is known of a struct that the file `p` declares. -/
structure DeclaredIn (files : String → Option IdlFile) (includeFile : String → String → String)
    (p : String) (s : TStruct) : Prop where
  definition : ∃ d ∈ definitionsOf files p, objectName? d = some s.name
  program : s.program = programOf files p
  members : ∀ f ∈ s.members, Written files includeFile p f.type

theorem declaredIn_of_declares {p y : String} {s : TStruct}
    (h : Declares files includeFile p y (.struct s)) : DeclaredIn files includeFile p s := by
  cases h with
  | object types hd hname hs ht => exact ⟨⟨_, hd, hname⟩, hs, fun f hf => ⟨types f, ht f hf⟩⟩

theorem declares_object {p : String} {info : TProgram} {sc : Scope}
    (hinfo : info = programOf files p) (hsound : Sound files includeFile p sc) {d : Definition}
    (hd : d ∈ definitionsOf files p) {s : TStruct} (hname : objectName? d = some s.name)
    (hs : s.program = info) (htypes : MemberTypes info sc s) :
    Declares files includeFile p s.name (.struct s) := by
  have hpath : info.path = p := by rw [hinfo]; rfl
  have hchosen : ∀ f : TField, ∃ type, f ∈ s.members → Denotes files includeFile p type f.type := by
    intro f
    by_cases hf : f ∈ s.members
    · obtain ⟨type, htype⟩ := htypes f hf
      exact ⟨type, fun _ => htype ▸ fieldType_denotes hpath hsound type⟩
    · exact ⟨.baseType .TYPE_VOID false, fun h => absurd h hf⟩
  choose types ht using hchosen
  exact .object types hd hname (hs.trans hinfo) ht

theorem elaborate_sound {p : String} {info : TProgram} {sc : Scope}
    (hinfo : info = programOf files p) (hsound : Sound files includeFile p sc) {d : Definition}
    {e : Entry} (hd : d ∈ definitionsOf files p)
    (h : elaborate flags scopes fuel info sc d = .ok e) :
    (∀ t ∈ e.type? info, Declares files includeFile p t.1 t.2) ∧
      ∀ t ∈ entryTypes info e, Written files includeFile p t := by
  have hpath : info.path = p := by rw [hinfo]; rfl
  have hmembers : ∀ s : TStruct, MemberTypes info sc s → ∀ t ∈ s.members.map TFieldOf.type,
      Written files includeFile p t := by
    intro s hs t ht
    obtain ⟨f, hf, rfl⟩ := List.mem_map.mp ht
    exact written_fieldType hpath hsound (hs f hf)
  have hobject : ∀ s : TStruct, objectName? d = some s.name → s.program = info →
      MemberTypes info sc s →
      (∀ t ∈ (Entry.object s).type? info, Declares files includeFile p t.1 t.2) ∧
        ∀ t ∈ entryTypes info (.object s), Written files includeFile p t := by
    intro s hname hprogram hs
    have hdeclares := declares_object hinfo hsound hd hname hprogram hs
    refine ⟨fun t ht => ?_, fun t ht => ?_⟩
    · obtain rfl := Option.some.inj ht
      exact hdeclares
    · rcases List.mem_cons.mp ht with rfl | ht
      · exact written_declared hdeclares
      · exact hmembers s hs t ht
  cases d with
  | const type name value =>
    obtain ⟨u, -, h⟩ := bind_ok h
    obtain ⟨v, -, h⟩ := bind_ok h
    obtain ⟨w, -, h⟩ := bind_ok h
    obtain rfl := Except.ok.inj h
    refine ⟨fun t ht => (by cases ht), fun t ht => ?_⟩
    rw [List.mem_singleton.mp ht]
    exact written_fieldType hpath hsound ⟨type, rfl⟩
  | typedef type name =>
    obtain ⟨u, -, h⟩ := bind_ok h
    obtain rfl := Except.ok.inj h
    have hdeclares : Declares files includeFile p name (.typedef info name _) :=
      .typedef hd (fieldType_denotes hpath hsound type)
    refine ⟨fun t ht => ?_, fun t ht => ?_⟩
    · obtain rfl := Option.some.inj ht
      exact hdeclares
    · rw [List.mem_singleton.mp ht]
      exact written_declared hdeclares
  | enum name values =>
    obtain ⟨tenum, htenum, h⟩ := bind_ok h
    obtain rfl := Except.ok.inj h
    have hdeclares : Declares files includeFile p tenum.name (.enum tenum) :=
      .enum ((enum_program htenum).trans hinfo)
    refine ⟨fun t ht => ?_, fun t ht => ?_⟩
    · obtain rfl := Option.some.inj ht
      exact hdeclares
    · rw [List.mem_singleton.mp ht]
      exact written_declared hdeclares
  | senum name =>
    obtain ⟨u, -, h⟩ := bind_ok h
    obtain rfl := Except.ok.inj h
    refine ⟨fun t ht => ?_, fun t ht => ?_⟩
    · obtain rfl := Option.some.inj ht
      exact .senum p name info
    · rw [List.mem_singleton.mp ht]
      exact written_declared (.senum p name info)
  | struct isUnion name fields =>
    obtain ⟨s, hs, h⟩ := bind_ok h
    obtain rfl := Except.ok.inj h
    obtain ⟨hname, -, hprogram, htypes⟩ := struct_ok hs
    exact hobject s (congrArg some hname.symm) hprogram htypes
  | xception name fields =>
    obtain ⟨s, hs, h⟩ := bind_ok h
    obtain rfl := Except.ok.inj h
    obtain ⟨hname, -, hprogram, htypes⟩ := xception_ok hs
    exact hobject s (congrArg some hname.symm) hprogram htypes
  | service name parent functions =>
    obtain ⟨s, hs, h⟩ := bind_ok h
    obtain rfl := Except.ok.inj h
    refine ⟨fun t ht => (by cases ht), fun t ht => ?_⟩
    obtain ⟨f, hf, ht⟩ := List.mem_flatMap.mp ht
    have hfunction := (service_ok hs).2 f hf
    rcases List.mem_cons.mp ht with rfl | ht
    · rcases hfunction.returntype with hvoid | htype
      · exact ⟨.baseType .TYPE_VOID false, hvoid ▸ .baseType p .TYPE_VOID false⟩
      · exact written_fieldType hpath hsound htype
    · rw [List.map_append, List.mem_append] at ht
      rcases ht with ht | ht
      · exact hmembers _ hfunction.arglist t ht
      · exact hmembers _ hfunction.xceptions t ht

/-- The names in a scope that the includes of the file `p` have left there. -/
def Imported (files : String → Option IdlFile) (includeFile : String → String → String)
    (p : String) (sc : Scope) : Prop :=
  ∀ e ∈ sc.types, ∃ q y, Includes files includeFile p q ∧ e.1 = programName q ++ "." ++ y ∧
    Declares files includeFile q y e.2

theorem Imported.sound {p : String} {sc : Scope} (h : Imported files includeFile p sc) :
    Sound files includeFile p sc := by
  intro e he
  obtain ⟨q, y, hq, hname, hdeclares⟩ := h e he
  exact ⟨q, y, hname ▸ .included y hq, hdeclares⟩

/-- What the pass over the file `p` keeps true. -/
structure PassSound (files : String → Option IdlFile) (includeFile : String → String → String)
    (p : String) (parents : List String) (pass : Pass) : Prop where
  info : pass.program.info = programOf files p
  scope : Sound files includeFile p pass.scope
  parent : ∀ sc ∈ pass.parentScope, ∀ r ∈ parents, Imported files includeFile r sc
  types : ∀ t ∈ programTypes pass.program, Written files includeFile p t

theorem PassSound.enter {p : String} {parents : List String}
    (hparents : ∀ r ∈ parents, Includes files includeFile r p) {pass pass' : Pass} {e : Entry}
    (h : PassSound files includeFile p parents pass)
    (htype : ∀ t ∈ e.type? pass.program.info, Declares files includeFile p t.1 t.2)
    (htypes : ∀ t ∈ entryTypes pass.program.info e, Written files includeFile p t)
    (henter : ThriftParser.enter includes pass e = .ok pass') :
    PassSound files includeFile p parents pass' := by
  have hprogram := enter_program henter
  obtain ⟨hscope, hparent, -⟩ := enter_type henter
  refine ⟨?_, fun t ht => ?_, fun sc hsc r hr t ht => ?_, fun t ht => ?_⟩
  · rw [hprogram]
    cases e <;> exact h.info
  · rw [hscope, List.mem_append, Option.mem_toList] at ht
    rcases ht with ht | ht
    · exact ⟨p, t.1, .own t.1, htype t ht⟩
    · exact h.scope t ht
  · cases hold : pass.parentScope with
    | none =>
      rw [hold, hsc] at hparent
      cases hparent
    | some old =>
      rw [hold, hsc] at hparent
      have htypes : sc.types = _ := Option.some.inj hparent
      rw [htypes, List.mem_append] at ht
      rcases ht with ht | ht
      · obtain ⟨u, hu, rfl⟩ := List.mem_map.mp ht
        refine ⟨p, u.1, hparents r hr, ?_, htype u (Option.mem_toList.mp hu)⟩
        unfold parentPrefix
        rw [h.info]
        rfl
      · exact h.parent old hold r hr t ht
  · rw [hprogram] at ht
    rcases programTypes_add ht with ht | ht
    · exact h.types t ht
    · exact htypes t ht

theorem definitions_sound {p : String} {parents : List String}
    (hparents : ∀ r ∈ parents, Includes files includeFile r p) {ds : List Definition}
    (hds : ∀ d ∈ ds, d ∈ definitionsOf files p) {pass pass' : Pass}
    (h : ds.foldlM (definition flags scopes fuel includes) pass = .ok pass')
    (hpass : PassSound files includeFile p parents pass) :
    PassSound files includeFile p parents pass' := by
  apply definitions_invariant h hpass
  intro d hd q q' e hq he henter
  obtain ⟨htype, htypes⟩ := elaborate_sound hq.info hq.scope (hds d hd) he
  exact hq.enter hparents htype htypes henter

/-- The typedef that makes `y` another name for `x`, once its definition is done. -/
def Linked (p : String) (sc : Scope) (types : List ThriftType) (y x : String) : Prop :=
  '.' ∉ y.toList ∧ ∃ info t, info.path = p ∧ (y, .typedef info y t) ∈ sc.types ∧
    .typedef info y t ∈ types ∧ (t = .forwardTypedef info x ∨ (x, t) ∈ sc.types)

theorem Linked.mono {p y x : String} {sc sc' : Scope} {types types' : List ThriftType}
    (h : Linked p sc types y x) (hscope : sc.types ⊆ sc'.types) (htypes : types ⊆ types') :
    Linked p sc' types' y x := by
  obtain ⟨hdot, info, t, hpath, hmem, htype, htarget⟩ := h
  exact ⟨hdot, info, t, hpath, hscope hmem, htypes htype, htarget.imp_right fun ht => hscope ht⟩

theorem enter_grows {pass pass' : Pass} {e : Entry}
    (h : ThriftParser.enter includes pass e = .ok pass') :
    pass.scope.types ⊆ pass'.scope.types ∧
      programTypes pass.program ⊆ programTypes pass'.program := by
  rw [(enter_type h).scope, enter_program h]
  refine ⟨List.subset_append_right .., ?_⟩
  intro t ht
  cases e <;>
    simp only [Program.add, programTypes, List.map_append, List.flatMap_append,
      List.mem_append] at ht ⊢ <;>
    tauto

theorem definitions_grow {ds : List Definition} {pass pass' : Pass}
    (h : ds.foldlM (definition flags scopes fuel includes) pass = .ok pass') :
    pass.scope.types ⊆ pass'.scope.types ∧
      programTypes pass.program ⊆ programTypes pass'.program := by
  apply definitions_invariant (P := fun q => pass.scope.types ⊆ q.scope.types ∧
    programTypes pass.program ⊆ programTypes q.program) h ⟨List.Subset.refl _, List.Subset.refl _⟩
  intro d _ q q' e hq _ henter
  have hgrows := enter_grows henter
  exact ⟨List.Subset.trans hq.1 hgrows.1, List.Subset.trans hq.2 hgrows.2⟩

theorem definition_linked {p y x : String} {pass pass' : Pass} (hpath : pass.program.info.path = p)
    (h : definition flags scopes fuel includes pass (.typedef (.identifier x) y) = .ok pass') :
    Linked p pass'.scope (programTypes pass'.program) y x := by
  obtain ⟨e, he, henter⟩ := bind_ok h
  obtain ⟨u, hu, he⟩ := bind_ok he
  obtain rfl := Except.ok.inj he
  unfold Linked
  rw [(enter_type henter).scope, enter_program henter]
  refine ⟨fun hdot => ?_, pass.program.info, fieldType pass.program.info pass.scope (.identifier x),
    hpath, ?_, ?_, ?_⟩
  · unfold validateSimpleIdentifier at hu
    rw [if_pos (by simpa using hdot)] at hu
    cases hu
  · exact List.mem_cons_self
  · simp [programTypes, Program.add]
  · unfold fieldType Scope.getType
    cases hfound : pass.scope.types.lookup x with
    | none => exact .inl rfl
    | some t => exact .inr (List.mem_cons_of_mem _ (SortedMap.mem_of_lookup hfound))

theorem definitions_linked {p : String} {ds : List Definition} {pass pass' : Pass}
    (hpath : pass.program.info.path = p)
    (h : ds.foldlM (definition flags scopes fuel includes) pass = .ok pass') {y x : String}
    (hmem : .typedef (.identifier x) y ∈ ds) :
    Linked p pass'.scope (programTypes pass'.program) y x := by
  induction ds generalizing pass with
  | nil => cases hmem
  | cons d ds ih =>
    obtain ⟨q, hq, hrest⟩ := bind_ok h
    rcases List.mem_cons.mp hmem with rfl | hmem
    · have hgrow : q.scope.types ⊆ _ ∧ programTypes q.program ⊆ _ := definitions_grow hrest
      exact (definition_linked hpath hq).mono hgrow.1 hgrow.2
    · obtain ⟨e, -, henter⟩ := bind_ok hq
      apply ih ?_ hrest hmem
      rw [enter_program henter]
      cases e <;> exact hpath

/-- The file's own names, those without a dot, each stand for one type. -/
structure NamesUnique (pass : Pass) : Prop where
  unique : ∀ a ∈ pass.scope.types, ∀ b ∈ pass.scope.types, '.' ∉ a.1.toList → a.1 = b.1 → a = b
  named : ∀ a ∈ pass.scope.types, '.' ∉ a.1.toList → a.1 ∈ pass.program.typenames

theorem typenames_add (p : Program) (e : Entry) :
    p.typenames ⊆ (p.add e).typenames ∧
      ∀ t ∈ e.type? p.info, t.1 ∈ (p.add e).typenames := by
  refine ⟨fun x hx => ?_, fun t ht => ?_⟩
  · cases e <;>
      simp only [Program.add, Program.typenames, List.map_append, List.mem_append] at hx ⊢ <;>
      tauto
  · cases e <;> cases ht <;> simp [Program.add, Program.typenames]

theorem NamesUnique.enter {pass pass' : Pass} {e : Entry} (h : NamesUnique pass)
    (henter : ThriftParser.enter includes pass e = .ok pass') : NamesUnique pass' := by
  obtain ⟨hscope, -, hunique⟩ := enter_type henter
  have hfresh : ∀ t ∈ e.type? pass.program.info, ∀ b ∈ pass.scope.types,
      '.' ∉ t.1.toList → t.1 ≠ b.1 := by
    intro t ht b hb hdot heq
    have hfree := hunique t ht
    unfold isUniqueTypename at hfree
    rw [Bool.and_eq_true, Bool.not_eq_true', heq] at hfree
    have htaken := h.named b hb (heq ▸ hdot)
    simp [htaken] at hfree
  refine ⟨?_, ?_⟩
  · rw [hscope]
    intro a ha b hb hdot heq
    rw [List.mem_append, Option.mem_toList] at ha hb
    rcases ha with ha | ha <;> rcases hb with hb | hb
    · exact Option.mem_unique ha hb
    · exact absurd heq (hfresh a ha b hb hdot)
    · exact absurd heq.symm (hfresh b hb a ha (heq ▸ hdot))
    · exact h.unique a ha b hb hdot heq
  · rw [hscope, enter_program henter]
    intro a ha hdot
    rw [List.mem_append, Option.mem_toList] at ha
    rcases ha with ha | ha
    · exact (typenames_add _ e).2 a ha
    · exact (typenames_add _ e).1 (h.named a ha hdot)

theorem Imported.dotted {p : String} {sc : Scope} (h : Imported files includeFile p sc)
    {e : String × ThriftType} (he : e ∈ sc.types) : '.' ∈ e.1.toList := by
  obtain ⟨q, y, -, hname, -⟩ := h e he
  rw [hname]
  simp

/-- What is known of a program when its pass is done. -/
structure NodeSound (files : String → Option IdlFile) (includeFile : String → String → String)
    (n : ProgramNode) : Prop where
  scope : Sound files includeFile n.path n.scope
  below : ∀ q sc, n.scopesBelow q = some sc → Sound files includeFile q sc
  types : ∀ t ∈ programTypes n.program, Written files includeFile n.path t
  linked : ∀ y x, Alias files n.path y x → Linked n.path n.scope (programTypes n.program) y x
  unique : ∀ a ∈ n.scope.types, ∀ b ∈ n.scope.types, '.' ∉ a.1.toList → a.1 = b.1 → a = b

/-- What the cache holds for a file. -/
structure EntrySound (files : String → Option IdlFile) (includeFile : String → String → String)
    (p : String) (k : Known) : Prop where
  scope : Imported files includeFile p k.scope
  below : ∀ q sc, k.below q = some sc → Sound files includeFile q sc

theorem parseDefinitions_sound {p : String} {parents : List String}
    (hparents : ∀ r ∈ parents, Includes files includeFile r p) {nodes : List ProgramNode}
    {k : Known} (hk : EntrySound files includeFile p k) {parent : Option Scope}
    (hparent : ∀ sc ∈ parent, ∀ r ∈ parents, Imported files includeFile r sc)
    {r : ProgramNode × Option Scope}
    (h : parseDefinitions files flags fuel p nodes k parent = .ok r) :
    NodeSound files includeFile r.1 ∧
      ∀ sc ∈ r.2, ∀ r ∈ parents, Imported files includeFile r sc := by
  obtain ⟨file, hfile, h⟩ := bind_ok h
  obtain ⟨pass, hpass, h⟩ := bind_ok h
  rw [← Except.ok.inj h]
  have hopen : files p = some file := by
    unfold openFile at hfile
    cases hp : files p with
    | none =>
      rw [hp] at hfile
      cases hfile
    | some file' =>
      rw [hp] at hfile
      rw [Except.ok.inj hfile]
  have hdefinitions : definitionsOf files p = file.definitions := by
    unfold definitionsOf
    rw [hopen]
  have hsound : PassSound files includeFile p parents pass := by
    apply definitions_sound hparents (by rw [hdefinitions]; exact fun d hd => hd) hpass
    refine ⟨?_, hk.scope.sound, hparent, fun t ht => absurd ht List.not_mem_nil⟩
    unfold programOf
    rw [hopen]
  have hunique : NamesUnique pass := by
    apply definitions_invariant hpass
    · exact ⟨fun a ha _ _ hdot => absurd (hk.scope.dotted ha) hdot,
        fun a ha hdot => absurd (hk.scope.dotted ha) hdot⟩
    · exact fun d _ q q' e hq _ henter => hq.enter henter
  have hpath : pass.program.info.path = p := by
    rw [hsound.info]
    rfl
  refine ⟨⟨?_, hk.below, ?_, fun y x hmem => ?_, hunique.unique⟩, hsound.parent⟩
  · change Sound files includeFile pass.program.info.path pass.scope
    rw [hpath]
    exact hsound.scope
  · change ∀ t ∈ programTypes pass.program, Written files includeFile pass.program.info.path t
    rw [hpath]
    exact hsound.types
  · change Alias files pass.program.info.path y x at hmem
    change Linked pass.program.info.path pass.scope (programTypes pass.program) y x
    rw [hpath] at hmem ⊢
    unfold Alias at hmem
    rw [hdefinitions] at hmem
    exact definitions_linked rfl hpass hmem

def TreeSound (files : String → Option IdlFile) (includeFile : String → String → String)
    (n : ProgramNode) : Prop :=
  ∀ m, Within n m → NodeSound files includeFile m ∧
    Relation.ReflTransGen (Includes files includeFile) n.path m.path

/-- What a run from the file `p` gives, for files that include it. -/
structure ResultSound (files : String → Option IdlFile)
    (includeFile : String → String → String) (p : String) (parents : List String)
    (known : ProgramToScope) (r : ProgramNode × Option Scope × ProgramToScope) : Prop where
  path : r.1.path = p
  tree : TreeSound files includeFile r.1
  parent : ∀ sc ∈ r.2.1, ∀ r ∈ parents, Imported files includeFile r sc
  entries : ∀ e ∈ r.2.2, EntrySound files includeFile e.1 e.2
  node : ∀ e ∈ r.2.2, e ∈ known ∨ ∃ m, Within r.1 m ∧ m.path = e.1

theorem parseIncludes_sound {one : String → Option Scope → ProgramToScope →
      Parsing (ProgramNode × Option Scope × ProgramToScope)} {p : String}
    (hone : ∀ q, Includes files includeFile p q → ∀ sc known r,
      Imported files includeFile p sc → (∀ e ∈ known, EntrySound files includeFile e.1 e.2) →
      (one q (some sc) known).run = some (.ok r) → ResultSound files includeFile q [p] known r)
    {paths : List String} (hpaths : ∀ q ∈ paths, Includes files includeFile p q) {sc : Scope}
    {known : ProgramToScope} (hsc : Imported files includeFile p sc)
    (hknown : ∀ e ∈ known, EntrySound files includeFile e.1 e.2)
    {r : List ProgramNode × Scope × ProgramToScope}
    (h : (parseIncludes one paths sc known).run = some (.ok r)) :
    (∀ n ∈ r.1, TreeSound files includeFile n ∧ Includes files includeFile p n.path) ∧
      Imported files includeFile p r.2.1 ∧ (∀ e ∈ r.2.2, EntrySound files includeFile e.1 e.2) ∧
      ∀ e ∈ r.2.2, e ∈ known ∨ ∃ n ∈ r.1, ∃ m, Within n m ∧ m.path = e.1 := by
  induction paths generalizing sc known r with
  | nil =>
    obtain rfl := Except.ok.inj (Option.some.inj h)
    exact ⟨by simp, hsc, hknown, fun e he => .inl he⟩
  | cons q paths ih =>
    obtain ⟨a, ha, h⟩ := run_bind_ok h
    have hq := hpaths q (by simp)
    obtain ⟨hpath, htree, hparent, hknown', hnode⟩ := hone q hq sc known a hsc hknown ha
    obtain ⟨b, hb, h⟩ := run_bind_ok h
    obtain rfl := Except.ok.inj (Option.some.inj h)
    have hsc' : Imported files includeFile p (a.2.1.getD sc) := by
      cases hscope : a.2.1 with
      | none => exact hsc
      | some sc' => exact hparent sc' hscope p (by simp)
    obtain ⟨hnodes, hscope, hentries, hrest⟩ :=
      ih (fun r hr => hpaths r (by simp [hr])) hsc' hknown' hb
    refine ⟨fun n hn => ?_, hscope, hentries, fun e he => ?_⟩
    · rcases List.mem_cons.mp hn with rfl | hn
      · exact ⟨htree, hpath ▸ hq⟩
      · exact hnodes n hn
    · rcases hrest e he with he | ⟨n, hn, hm⟩
      · rcases hnode e he with he | hm
        · exact .inl he
        · exact .inr ⟨a.1, by simp, hm⟩
      · exact .inr ⟨n, by simp [hn], hm⟩

theorem reach_sound {nodes : List ProgramNode}
    (h : ∀ n ∈ nodes, NodeSound files includeFile n) {q : String} {sc : Scope}
    (hq : ProgramNode.reach nodes q = some sc) : Sound files includeFile q sc := by
  obtain ⟨n, hn, hfound⟩ := List.exists_of_findSome?_eq_some hq
  split at hfound
  · rename_i heq
    rw [heq, ← Option.some.inj hfound]
    exact (h n hn).scope
  · exact (h n hn).below q sc hfound

theorem parse_sound (depth : ℕ) {p : String} {parents : List String}
    (hparents : ∀ r ∈ parents, Includes files includeFile r p) {parent : Option Scope}
    {known : ProgramToScope}
    (hparent : ∀ sc ∈ parent, ∀ r ∈ parents, Imported files includeFile r sc)
    (hknown : ∀ e ∈ known, EntrySound files includeFile e.1 e.2)
    {r : ProgramNode × Option Scope × ProgramToScope}
    (h : (parse files includeFile flags fuel true depth p parent known).run = some (.ok r)) :
    ResultSound files includeFile p parents known r := by
  induction depth generalizing p parents parent known r with
  | zero => cases h
  | succ depth ih =>
    unfold parse at h
    simp only [↓reduceIte] at h
    cases hfound : known.lookup p with
    | some found =>
      rw [hfound] at h
      obtain ⟨a, ha, h⟩ := run_bind_ok h
      obtain rfl := Except.ok.inj (Option.some.inj h)
      have hentry := hknown _ (SortedMap.mem_of_lookup hfound)
      obtain ⟨hnode, hsc⟩ := parseDefinitions_sound hparents hentry hparent (Option.some.inj ha)
      obtain ⟨hpath, hincludes⟩ := parseDefinitions_node (Option.some.inj ha)
      refine ⟨hpath, fun m hm => ?_, hsc, hknown, fun e he => .inl he⟩
      rcases hm.cases_head with rfl | ⟨n, hn, -⟩
      · exact ⟨hnode, .refl⟩
      · change n ∈ a.1.includes at hn
        rw [hincludes] at hn
        cases hn
    | none =>
      rw [hfound] at h
      obtain ⟨paths, hpaths, h⟩ := run_bind_ok h
      obtain rfl := scanIncludes_ok (Option.some.inj hpaths)
      obtain ⟨a, hloop, h⟩ := run_bind_ok h
      obtain ⟨b, hb, h⟩ := run_bind_ok h
      obtain rfl := Except.ok.inj (Option.some.inj h)
      have hempty : Imported files includeFile p {} := fun e he => absurd he List.not_mem_nil
      obtain ⟨hnodes, hscope, hentries, hbelow⟩ := parseIncludes_sound
        (fun q hq sc known r hsc hknown hr => ih (by simpa using hq) (by simpa using hsc) hknown hr)
        (fun q hq => hq) hempty hknown hloop
      have hentry : EntrySound files includeFile p ⟨a.2.1, ProgramNode.reach a.1⟩ :=
        ⟨hscope, fun q sc hq => reach_sound (fun n hn => ((hnodes n hn).1 n .refl).1) hq⟩
      obtain ⟨hnode, hsc⟩ := parseDefinitions_sound hparents hentry hparent (Option.some.inj hb)
      obtain ⟨hpath, hincludes⟩ := parseDefinitions_node (Option.some.inj hb)
      refine ⟨hpath, fun m hm => ?_, hsc, fun e he => ?_, fun e he => ?_⟩
      · rcases hm.cases_head with rfl | ⟨n, hn, hm⟩
        · exact ⟨hnode, .refl⟩
        · change n ∈ b.1.includes at hn
          rw [hincludes] at hn
          obtain ⟨htree, hstep⟩ := hnodes n hn
          obtain ⟨hsound, hreach⟩ := htree m hm
          exact ⟨hsound, .head (hpath ▸ hstep) hreach⟩
      · rcases List.mem_cons.mp he with rfl | he
        · exact hentry
        · exact hentries e he
      · rcases List.mem_cons.mp he with rfl | he
        · exact .inr ⟨b.1, .refl, hpath⟩
        · rcases hbelow e he with he | ⟨n, hn, m, hm, hmpath⟩
          · exact .inl he
          · exact .inr ⟨m, .head (hincludes ▸ hn) hm, hmpath⟩

end Soundness

section Tree
variable {files : String → Option IdlFile} {includeFile : String → String → String}
variable {flags : Flags} {fuel : ℕ}

/-- Where the typedefs of a program look up names. -/
def nodeScopes (n : ProgramNode) (p : String) : Scope :=
  if p = n.path then n.scope else (n.scopesBelow p).getD {}

theorem NodeSound.scopes {n : ProgramNode} (h : NodeSound files includeFile n) (p : String) :
    Sound files includeFile p (nodeScopes n p) := by
  unfold nodeScopes
  split
  · rename_i heq
    rw [heq]
    exact h.scope
  · cases hbelow : n.scopesBelow p with
    | none => exact fun e he => absurd he List.not_mem_nil
    | some sc => exact h.below p sc hbelow

theorem good_of_visible {G : String → Prop}
    (hgood : ∀ p q, G p → Includes files includeFile p q → G q) {p x q y : String}
    (hp : G p) (h : Visible files includeFile p x q y) : G q := by
  cases h with
  | own => exact hp
  | included _ hq => exact hgood p q hp hq

theorem written_parts {G : String → Prop}
    (hgood : ∀ p q, G p → Includes files includeFile p q → G q) {t : ThriftType}
    (h : ∃ p, G p ∧ Written files includeFile p t) :
    ∀ u ∈ parts t, ∃ p, G p ∧ Written files includeFile p u := by
  induction t with
  | baseType | enum | struct | forwardTypedef =>
    intro u hu
    rw [List.mem_singleton.mp hu]
    exact h
  | list e ih =>
    intro u hu
    rcases List.mem_cons.mp hu with rfl | hu
    · exact h
    apply ih ?_ u hu
    obtain ⟨p, hp, type, ht⟩ := h
    cases ht with
    | list he => exact ⟨p, hp, _, he⟩
    | bound _ ht => cases ht
  | set e ih =>
    intro u hu
    rcases List.mem_cons.mp hu with rfl | hu
    · exact h
    apply ih ?_ u hu
    obtain ⟨p, hp, type, ht⟩ := h
    cases ht with
    | set he => exact ⟨p, hp, _, he⟩
    | bound _ ht => cases ht
  | map k v ihk ihv =>
    intro u hu
    rcases List.mem_cons.mp hu with rfl | hu
    · exact h
    obtain ⟨p, hp, type, ht⟩ := h
    cases ht with
    | map hk hv =>
      rcases List.mem_append.mp hu with hu | hu
      · exact ihk ⟨p, hp, _, hk⟩ u hu
      · exact ihv ⟨p, hp, _, hv⟩ u hu
    | bound _ ht => cases ht
  | typedef info y t ih =>
    intro u hu
    rcases List.mem_cons.mp hu with rfl | hu
    · exact h
    apply ih ?_ u hu
    obtain ⟨p, hp, type, ht⟩ := h
    cases ht with
    | bound hx ht =>
      cases ht with
      | typedef _ ht => exact ⟨_, good_of_visible hgood hp hx, _, ht⟩
      | senum => exact ⟨p, hp, .baseType .TYPE_STRING false, .baseType p .TYPE_STRING false⟩

theorem parse_tree {root : String} {depth : ℕ} {r : ProgramNode × Option Scope × ProgramToScope}
    (h : (parse files includeFile flags fuel true depth root none []).run = some (.ok r)) :
    r.1.path = root ∧ TreeSound files includeFile r.1 ∧
      ∀ p, Relation.ReflTransGen (Includes files includeFile) root p →
        ∃ m, Within r.1 m ∧ m.path = p := by
  have hnone : ∀ sc ∈ (none : Option Scope), ∀ r ∈ ([] : List String),
      Imported files includeFile r sc := fun sc hsc => nomatch hsc
  have hparents : ∀ r ∈ ([] : List String), Includes files includeFile r root := by simp
  have hsound := parse_sound depth hparents hnone (by simp) h
  refine ⟨hsound.path, hsound.tree, fun p hp => ?_⟩
  obtain ⟨e, he, rfl⟩ := List.mem_map.mp ((mem_keys_of_parse h p).mpr hp)
  rcases hsound.node e he with hnil | hnode
  · exact absurd hnil List.not_mem_nil
  · exact hnode

end Tree

end Sparsam.NameResolution
