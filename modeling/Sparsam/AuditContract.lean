import Sparsam.AuditMerge
import Sparsam.ComparedTypes

set_option autoImplicit false

/-!
# What an audit without a failure promises

`Kept new old` says what must have survived of the old file for the compiler to
return no error: services with their functions, arguments and exceptions, the
values of the enums that are still there, structs and exceptions with the ids of
their members. The audit reports no failure exactly then.
-/
namespace Sparsam.AuditContract
open ThriftTypes ThriftScope ThriftParser FieldLists Audit AuditMerge AuditReflexivity ComparedTypes

/-- The two types print the same names wherever they meet. -/
def PrintAlike (new old : ThriftType) : Prop := ∀ p ∈ meetings new old, NamedAlike p

/-- An old member is still there under its id; a further id comes after all old
    ones and is not required. -/
structure MembersKept (news olds : List TField) : Prop where
  kept : ∀ o ∈ olds, ∃ n ∈ news, n.key = o.key ∧ PrintAlike n.type o.type ∧
    (n.req = .T_REQUIRED ↔ o.req = .T_REQUIRED)
  added : ∀ n ∈ news, (∀ o ∈ olds, n.key ≠ o.key) →
    n.req ≠ .T_REQUIRED ∧ ∀ o ∈ olds, o.key < n.key

structure FunctionKept (new old : TFunction) : Prop where
  oneway : new.oneway = old.oneway
  returntype : PrintAlike new.returntype old.returntype
  arglist : MembersKept new.arglist.members old.arglist.members
  xceptions : MembersKept new.xceptions.members old.xceptions.members

structure ServiceKept (new old : TService) : Prop where
  inherits : old.extends_ = none ∨ new.extends_ = old.extends_
  functions : ∀ o ∈ old.functions, ∃ n ∈ new.functions, n.name = o.name ∧ FunctionKept n o

/-- Enums may vanish whole, but not a value of one that stays. -/
structure Kept (new old : Program) : Prop where
  services : ∀ o ∈ old.services, ∃ n ∈ new.services, n.name = o.name ∧ ServiceKept n o
  enums : ∀ o ∈ old.enums, ∀ n ∈ new.enums, n.name = o.name →
    ∀ v ∈ o.constants, ∃ v' ∈ n.constants, v'.value = v.value
  structs : ∀ o ∈ old.structs, ∃ n ∈ new.structs, n.name = o.name ∧
    MembersKept n.members o.members
  xceptions : ∀ o ∈ old.xceptions, ∃ n ∈ new.xceptions, n.name = o.name ∧
    MembersKept n.members o.members

section Failures

@[simp] theorem returnFailure_nil : ¬ returnFailure [] := by simp [returnFailure]

@[simp] theorem returnFailure_failure (msg : String) : returnFailure [.failure msg] :=
  ⟨msg, by simp⟩

@[simp] theorem returnFailure_warning (msg : String) : ¬ returnFailure [.warning msg] := by
  simp [returnFailure]

@[simp] theorem returnFailure_append (rs rs' : List Report) :
    returnFailure (rs ++ rs') ↔ returnFailure rs ∨ returnFailure rs' := by
  simp only [returnFailure, List.mem_append, exists_or]

theorem returnFailure_flatMap {α : Type} (f : α → List Report) (xs : List α) :
    returnFailure (xs.flatMap f) ↔ ∃ x ∈ xs, returnFailure (f x) := by
  unfold returnFailure
  constructor
  · rintro ⟨msg, h⟩
    obtain ⟨x, hx, hmsg⟩ := List.mem_flatMap.mp h
    exact ⟨x, hx, msg, hmsg⟩
  · rintro ⟨x, hx, msg, hmsg⟩
    exact ⟨msg, List.mem_flatMap.mpr ⟨x, hx, hmsg⟩⟩

@[simp] theorem returnFailure_ite_warning (c : Prop) [Decidable c] (msg : String) :
    ¬ returnFailure (if c then [] else [.warning msg]) := by
  split <;> simp

@[simp] theorem returnFailure_ite_failure (c : Prop) [Decidable c] (msg : String) :
    returnFailure (if c then [] else [.failure msg]) ↔ ¬ c := by
  split <;> simp_all

theorem not_exists_failure {α : Type} (f : α → List Report) (xs : List α) :
    ¬ returnFailure (xs.flatMap f) ↔ ∀ x ∈ xs, ¬ returnFailure (f x) := by
  rw [returnFailure_flatMap]
  simp only [not_exists, not_and]

theorem compareByName_clean {α : Type} {name : α → String} {missing : String → Report}
    {compare : α → α → List Report} {new old : List α} (hnodup : (new.map name).Nodup)
    (hmissing : ∀ key, returnFailure [missing key]) :
    ¬ returnFailure (compareByName name missing compare new old) ↔
      ∀ o ∈ old, ∃ n ∈ new, name n = name o ∧ ¬ returnFailure (compare n o) := by
  unfold compareByName
  rw [not_exists_failure]
  apply forall₂_congr
  intro o ho
  by_cases hex : ∃ n ∈ new, name n = name o
  · obtain ⟨n, hn, heq⟩ := hex
    rw [← heq, byName_of_mem hnodup hn]
    constructor
    · exact fun h => ⟨n, hn, rfl, h⟩
    · rintro ⟨m, hm, hname, h⟩
      obtain rfl : m = n := List.inj_on_of_nodup_map hnodup hm hn hname
      exact h
  · simp only [not_exists, not_and] at hex
    rw [byName_eq_none hex]
    constructor
    · exact fun h => absurd (hmissing _) h
    · rintro ⟨n, hn, heq, -⟩
      exact absurd heq (hex n hn)

end Failures

section Structs

theorem compareStructField_clean (new old : TField) (structName : String) :
    ¬ returnFailure (compareStructField new old structName) ↔
      PrintAlike new.type old.type ∧ (new.req = .T_REQUIRED ↔ old.req = .T_REQUIRED) := by
  have hdefaults : ∀ (c c' : Prop) [Decidable c] [Decidable c'] (msg : String),
      ¬ returnFailure (if c then (if c' then [] else [.warning msg]) else []) := by
    intro c c' _ _ msg
    split
    · simp
    · simp
  have hreq : (decide (new.req ≠ .T_REQUIRED) = decide (old.req ≠ .T_REQUIRED)) ↔
      (new.req = .T_REQUIRED ↔ old.req = .T_REQUIRED) := by
    rw [decide_eq_decide, not_iff_not]
  unfold compareStructField PrintAlike
  rw [← compareType_iff, ← hreq]
  simp only [returnFailure_append, returnFailure_ite_failure, returnFailure_ite_warning,
    hdefaults, or_false, not_or, not_not]

theorem turn_clean (structName : String) (t : Turn) :
    ¬ returnFailure (t.reports structName) ↔
      match t with
      | .compared new old =>
        PrintAlike new.type old.type ∧ (new.req = .T_REQUIRED ↔ old.req = .T_REQUIRED)
      | .removed _ | .addedMiddle _ => False
      | .addedEnd new => new.req ≠ .T_REQUIRED := by
  cases t with
  | compared new old => exact compareStructField_clean new old structName
  | removed old => simp [Turn.reports, fieldRemoved]
  | addedMiddle new => simp [Turn.reports]
  | addedEnd new =>
    change ¬ returnFailure (if new.req = .T_REQUIRED then [.failure _] else []) ↔ _
    split <;> simp_all

theorem compareSingleStruct_clean {new old : TStruct} (hnew : Built new) (hold : Built old)
    (oldStructName : String) :
    ¬ returnFailure (compareSingleStruct new old oldStructName) ↔
      MembersKept new.members old.members := by
  have hclass := (turns_classified hnew.increasing hold.increasing).of_perm
    (sortedMembers_perm new) (sortedMembers_perm old)
  unfold compareSingleStruct
  dsimp only
  rw [compareMembers_turns, not_exists_failure]
  constructor
  · intro h
    refine ⟨fun o ho => ?_, fun n hn hnot => ?_⟩
    · by_cases hex : ∃ n ∈ new.members, n.key = o.key
      · obtain ⟨n, hn, hkey⟩ := hex
        have hturn := h _ ((hclass.compared n o).mpr ⟨hn, ho, hkey⟩)
        rw [turn_clean] at hturn
        exact ⟨n, hn, hkey, hturn.1, hturn.2⟩
      · simp only [not_exists, not_and] at hex
        have hturn := h _ ((hclass.removed o).mpr ⟨ho, hex⟩)
        rw [turn_clean] at hturn
        exact hturn.elim
    · have hlast : ∀ o ∈ old.members, o.key < n.key := by
        intro o ho
        by_contra hle
        have hlt : n.key < o.key := Int32.lt_of_le_of_ne (Int32.not_lt.mp hle) (hnot o ho)
        have hturn := h _ ((hclass.addedMiddle n).mpr ⟨hn, hnot, o, ho, hlt⟩)
        rw [turn_clean] at hturn
        exact hturn
      have hturn := h _ ((hclass.addedEnd n).mpr ⟨hn, hlast⟩)
      rw [turn_clean] at hturn
      exact ⟨hturn, hlast⟩
  · rintro ⟨hkept, hadded⟩ t ht
    rw [turn_clean]
    cases t with
    | compared n o =>
      obtain ⟨hn, ho, hkey⟩ := (hclass.compared n o).mp ht
      obtain ⟨m, hm, hmkey, halike, hreq⟩ := hkept o ho
      obtain rfl : m = n := List.inj_on_of_nodup_map hnew.keys_nodup hm hn (hmkey.trans hkey.symm)
      exact ⟨halike, hreq⟩
    | removed o =>
      obtain ⟨ho, hnone⟩ := (hclass.removed o).mp ht
      obtain ⟨n, hn, hkey, -⟩ := hkept o ho
      exact hnone n hn hkey
    | addedMiddle n =>
      obtain ⟨hn, hnone, o, ho, hlt⟩ := (hclass.addedMiddle n).mp ht
      exact Int32.lt_irrefl (Int32.lt_trans hlt ((hadded n hn hnone).2 o ho))
    | addedEnd n =>
      obtain ⟨hn, hlast⟩ := (hclass.addedEnd n).mp ht
      refine (hadded n hn fun o ho heq => ?_).1
      have hlt := hlast o ho
      rw [heq] at hlt
      exact Int32.lt_irrefl hlt

end Structs

def AllBuilt (p : Program) : Prop := ∀ s ∈ auditedStructs p, Built s

section Program
variable {new old : Program}

theorem compareStructs_clean (news olds : List TStruct) (hnews : ∀ s ∈ news, Built s)
    (holds : ∀ s ∈ olds, Built s) (hnodup : (news.map TStructOf.name).Nodup) :
    ¬ returnFailure (compareStructs news olds) ↔
      ∀ o ∈ olds, ∃ n ∈ news, n.name = o.name ∧ MembersKept n.members o.members := by
  unfold compareStructs
  rw [compareByName_clean hnodup fun key => returnFailure_failure _]
  apply forall₂_congr
  intro o ho
  apply exists_congr
  intro n
  constructor
  · rintro ⟨hn, hname, h⟩
    exact ⟨hn, hname, (compareSingleStruct_clean (hnews n hn) (holds o ho) "").mp h⟩
  · rintro ⟨hn, hname, h⟩
    exact ⟨hn, hname, (compareSingleStruct_clean (hnews n hn) (holds o ho) "").mpr h⟩

theorem compareSingleFunction_clean {n o : TFunction} (hn : Built n.arglist ∧ Built n.xceptions)
    (ho : Built o.arglist ∧ Built o.xceptions) :
    ¬ returnFailure (compareSingleFunction n o) ↔ FunctionKept n o := by
  unfold compareSingleFunction
  simp only [returnFailure_append, returnFailure_ite_failure, not_or, not_not, compareType_iff]
  rw [compareSingleStruct_clean hn.1 ho.1, compareSingleStruct_clean hn.2 ho.2]
  constructor
  · rintro ⟨⟨⟨honeway, hreturn⟩, hargs⟩, hxceptions⟩
    exact ⟨honeway, hreturn, hargs, hxceptions⟩
  · rintro ⟨honeway, hreturn, hargs, hxceptions⟩
    exact ⟨⟨⟨honeway, hreturn⟩, hargs⟩, hxceptions⟩

theorem compareExtends_clean (n o : TService) :
    ¬ returnFailure (compareExtends n o) ↔ o.extends_ = none ∨ n.extends_ = o.extends_ := by
  unfold compareExtends
  cases ho : o.extends_ with
  | none => simp
  | some oldName =>
    cases hn : n.extends_ with
    | none => simp
    | some newName =>
      dsimp only
      split <;> simp_all

theorem compareServices_clean (hnew : AllBuilt new) (hold : AllBuilt old)
    (hnames : DistinctNames new) :
    ¬ returnFailure (compareServices new.services old.services) ↔
      ∀ o ∈ old.services, ∃ n ∈ new.services, n.name = o.name ∧ ServiceKept n o := by
  unfold compareServices
  rw [compareByName_clean hnames.services fun key => returnFailure_failure _]
  apply forall₂_congr
  intro o ho
  apply exists_congr
  intro n
  apply and_congr_right
  intro hn
  apply and_congr_right
  intro _
  have hfunctions : ¬ returnFailure (compareFunctions n.functions o.functions) ↔
      ∀ f ∈ o.functions, ∃ g ∈ n.functions, g.name = f.name ∧ FunctionKept g f := by
    unfold compareFunctions
    rw [compareByName_clean (hnames.functions n hn) fun key => returnFailure_failure _]
    apply forall₂_congr
    intro f hf
    apply exists_congr
    intro g
    apply and_congr_right
    intro hg
    obtain ⟨hargs, hxceptions⟩ := mem_auditedStructs hn hg
    obtain ⟨hargs', hxceptions'⟩ := mem_auditedStructs ho hf
    rw [compareSingleFunction_clean ⟨hnew _ hargs, hnew _ hxceptions⟩
      ⟨hold _ hargs', hold _ hxceptions'⟩]
  unfold compareService
  rw [returnFailure_append, not_or, compareExtends_clean, hfunctions]
  exact ⟨fun h => ⟨h.1, h.2⟩, fun h => ⟨h.1, h.2⟩⟩

theorem getConstantByValue_isSome (e : TEnum) (value : ℤ) :
    (e.getConstantByValue value).isSome = true ↔ ∃ v ∈ e.constants, v.value.toInt = value := by
  unfold TEnum.getConstantByValue
  rw [List.find?_isSome]
  simp

theorem compareEnums_clean (hnodup : (new.enums.map TEnum.name).Nodup) :
    ¬ returnFailure (compareEnums new.enums old.enums) ↔
      ∀ o ∈ old.enums, ∀ n ∈ new.enums, n.name = o.name →
        ∀ v ∈ o.constants, ∃ v' ∈ n.constants, v'.value = v.value := by
  have hvalues : ∀ n o : TEnum, ¬ returnFailure (compareEnumValues n o) ↔
      ∀ v ∈ o.constants, ∃ v' ∈ n.constants, v'.value = v.value := by
    intro n o
    unfold compareEnumValues
    rw [not_exists_failure]
    apply forall₂_congr
    intro v _
    have hsome := getConstantByValue_isSome n v.value.toInt
    simp only [Int32.toInt_inj] at hsome
    rw [← hsome]
    unfold compareEnumValue
    cases n.getConstantByValue v.value.toInt with
    | none => simp
    | some v' =>
      dsimp only
      split <;> simp
  unfold compareEnums compareByName
  rw [not_exists_failure]
  apply forall₂_congr
  intro o _
  by_cases hex : ∃ n ∈ new.enums, n.name = o.name
  · obtain ⟨n, hn, heq⟩ := hex
    rw [← heq, byName_of_mem hnodup hn]
    dsimp only
    rw [hvalues]
    constructor
    · intro h m hm hname
      obtain rfl : m = n := List.inj_on_of_nodup_map hnodup hm hn hname
      exact h
    · exact fun h => h n hn rfl
  · simp only [not_exists, not_and] at hex
    rw [byName_eq_none hex]
    dsimp only
    constructor
    · exact fun _ n hn heq => absurd heq (hex n hn)
    · exact fun _ => returnFailure_warning _

theorem compareNamespace_clean (n o : TProgram) : ¬ returnFailure (compareNamespace n o) := by
  unfold compareNamespace
  rw [not_exists_failure]
  intro ns _
  split
  · simp
  · split <;> simp

theorem compareConsts_clean (news olds : List TConst) :
    ¬ returnFailure (compareConsts news olds) := by
  unfold compareConsts compareByName
  rw [not_exists_failure]
  intro c _
  split
  · simp
  · unfold compareConst
    split
    · simp
    · split <;> simp

theorem nodup_filter_names {p : Program} (h : DistinctNames p) (keep : TStruct → Bool) :
    ((p.objects.filter keep).map TStructOf.name).Nodup :=
  (List.filter_sublist.map _).nodup h.objects

theorem audit_clean (hnew : AllBuilt new) (hold : AllBuilt old) (hnames : DistinctNames new) :
    ¬ returnFailure (audit new old) ↔ Kept new old := by
  have hobjects : ∀ {p : Program}, AllBuilt p → ∀ s ∈ p.objects, Built s := fun h s hs =>
    h s (List.mem_append_left _ hs)
  have hstructs := compareStructs_clean new.structs old.structs
    (fun s hs => hobjects hnew s (List.mem_of_mem_filter hs))
    (fun s hs => hobjects hold s (List.mem_of_mem_filter hs)) (nodup_filter_names hnames _)
  have hxceptions := compareStructs_clean new.xceptions old.xceptions
    (fun s hs => hobjects hnew s (List.mem_of_mem_filter hs))
    (fun s hs => hobjects hold s (List.mem_of_mem_filter hs)) (nodup_filter_names hnames _)
  unfold audit
  simp only [returnFailure_append, not_or, compareNamespace_clean, compareConsts_clean,
    not_false_eq_true, true_and, and_true]
  rw [compareServices_clean hnew hold hnames, compareEnums_clean hnames.enums, hstructs, hxceptions]
  constructor
  · rintro ⟨⟨⟨hservices, henums⟩, hstructs⟩, hxceptions⟩
    exact ⟨hservices, henums, hstructs, hxceptions⟩
  · rintro ⟨hservices, henums, hstructs, hxceptions⟩
    exact ⟨⟨⟨hservices, henums⟩, hstructs⟩, hxceptions⟩

end Program

section Accepted
variable {flags flags' : Flags} {scopes scopes' : String → Scope} {fuel fuel' : ℕ}
  {includes includes' : List Program} {info : TProgram} {scope scope' : Scope}

def FunctionBuilt (f : TFunction) : Prop := Built f.arglist ∧ Built f.xceptions

theorem function_built {d : FunctionDecl} {f : TFunction}
    (h : function flags scopes fuel info scope d = .ok f) : FunctionBuilt f := by
  unfold function at h
  obtain ⟨args, hargs, h⟩ := bind_ok h
  obtain ⟨throws, hthrows, h⟩ := bind_ok h
  obtain ⟨u, -, h⟩ := bind_ok h
  obtain ⟨v, -, h⟩ := bind_ok h
  obtain ⟨named, hnamed, h⟩ := bind_ok h
  split at h
  · cases h
  rw [← Except.ok.inj h]
  exact ⟨.setName (fieldList_built hargs) hnamed, fieldList_built hthrows⟩

theorem functionList_built {fs fs' : List TFunction} {ds : List FunctionDecl}
    (h : functionList flags scopes fuel info scope fs ds = .ok fs')
    (hfs : ∀ f ∈ fs, FunctionBuilt f) : ∀ f ∈ fs', FunctionBuilt f := by
  induction ds generalizing fs with
  | nil =>
    rw [← Except.ok.inj h]
    exact hfs
  | cons d ds ih =>
    obtain ⟨f, hf, h⟩ := bind_ok h
    split at h
    · cases h
    apply ih h
    intro g hg
    rcases List.mem_append.mp hg with hg | hg
    · exact hfs g hg
    · rw [List.mem_singleton.mp hg]
      exact function_built hf

def EntryBuilt : Entry → Prop
  | .object s => Built s
  | .service s => ∀ f ∈ s.functions, FunctionBuilt f
  | .const _ | .typedef _ _ | .enum _ => True

theorem elaborate_built {d : Definition} {e : Entry}
    (h : elaborate flags scopes fuel info scope d = .ok e) : EntryBuilt e := by
  cases d with
  | const type name value =>
    obtain ⟨_, -, h⟩ := bind_ok h
    obtain ⟨_, -, h⟩ := bind_ok h
    obtain ⟨_, -, h⟩ := bind_ok h
    rw [← Except.ok.inj h]
    trivial
  | typedef | enum | senum =>
    obtain ⟨_, -, h⟩ := bind_ok h
    rw [← Except.ok.inj h]
    trivial
  | struct isUnion name fields =>
    obtain ⟨s, hs, h⟩ := bind_ok h
    rw [← Except.ok.inj h]
    exact struct_built hs
  | xception name fields =>
    obtain ⟨s, hs, h⟩ := bind_ok h
    rw [← Except.ok.inj h]
    obtain ⟨r, hr, hs⟩ := bind_ok hs
    obtain ⟨u, -, hs⟩ := bind_ok hs
    obtain ⟨t, ht, hs⟩ := bind_ok hs
    rw [← Except.ok.inj hs]
    exact .setXception true (.setName (fieldList_built hr) ht)
  | service name parent functions =>
    obtain ⟨s, hs, h⟩ := bind_ok h
    rw [← Except.ok.inj h]
    obtain ⟨parent', -, hs⟩ := bind_ok hs
    obtain ⟨fs, hfs, hs⟩ := bind_ok hs
    obtain ⟨u, -, hs⟩ := bind_ok hs
    rw [← Except.ok.inj hs]
    exact functionList_built hfs (by simp)

theorem mem_auditedStructs_iff {p : Program} {s : TStruct} :
    s ∈ auditedStructs p ↔ s ∈ p.objects ∨
      ∃ t ∈ p.services, ∃ f ∈ t.functions, s = f.arglist ∨ s = f.xceptions := by
  simp only [auditedStructs, List.mem_append, List.mem_flatMap, List.mem_cons, List.not_mem_nil,
    or_false]

theorem AllBuilt.add {p : Program} {e : Entry} (hp : AllBuilt p) (he : EntryBuilt e) :
    AllBuilt (p.add e) := by
  intro s hs
  rw [mem_auditedStructs_iff] at hs
  cases e with
  | const | typedef | enum => exact hp s (mem_auditedStructs_iff.mpr hs)
  | object t =>
    change s ∈ p.objects ++ [t] ∨ _ at hs
    rw [List.mem_append, List.mem_singleton] at hs
    rcases hs with (hs | rfl) | hs
    · exact hp s (mem_auditedStructs_iff.mpr (.inl hs))
    · exact he
    · exact hp s (mem_auditedStructs_iff.mpr (.inr hs))
  | service t =>
    rcases hs with hs | ⟨u, hu, f, hf, hs⟩
    · exact hp s (mem_auditedStructs_iff.mpr (.inl hs))
    · change u ∈ p.services ++ [t] at hu
      rw [List.mem_append, List.mem_singleton] at hu
      rcases hu with hu | rfl
      · exact hp s (mem_auditedStructs_iff.mpr (.inr ⟨u, hu, f, hf, hs⟩))
      · rcases hs with rfl | rfl
        · exact (he f hf).1
        · exact (he f hf).2

theorem allBuilt_of_parse {path : String} {file : IdlFile} {parent : Option Scope} {pass : Pass}
    (h : parseProgram flags scopes fuel includes path file scope parent = .ok pass) :
    AllBuilt pass.program := by
  apply definitions_invariant (P := fun q => AllBuilt q.program) h
  · intro s hs
    exact absurd hs List.not_mem_nil
  · intro d _ q q' e hq he henter
    rw [enter_program henter]
    exact hq.add (elaborate_built he)

/-- The audit of two accepted files reports no failure exactly when the new one keeps
    what the old one promised. -/
theorem clean_iff_kept {path path' : String} {file file' : IdlFile} {parent parent' : Option Scope}
    {new old : Pass}
    (hnew : parseProgram flags scopes fuel includes path file scope parent = .ok new)
    (hold : parseProgram flags' scopes' fuel' includes' path' file' scope' parent' = .ok old) :
    ¬ returnFailure (audit new.program old.program) ↔ Kept new.program old.program :=
  audit_clean (allBuilt_of_parse hnew) (allBuilt_of_parse hold) (distinctNames_of_parse hnew)

end Accepted

section Examples

def deepPixels : IdlFile where
  definitions := [.enum "Color" [("RED", some 1), ("GREEN", some 2), ("BLUE", some 4)],
    .struct false "Pixel" [
      { identifier := some 1, type := .baseType .TYPE_I32 false, name := "depth",
        value := some { valType := .CV_INTEGER, intVal := 8 } },
      { identifier := some 2, requiredness := some .optional, type := .identifier "Color",
        name := "tint" }]]

theorem deepPixels_reports : ∃ new old, parseAlone deepPixels = .ok new ∧
    parseAlone pixels = .ok old ∧ audit new.program old.program = [] ∧
    .failure "Enum value 4 missing in Color\n" ∈ audit old.program new.program :=
  ⟨_, _, rfl, rfl, by decide +kernel, by decide +kernel⟩

/-- The new file has more; the other way round a value and a member are missing. -/
theorem deepPixels_kept : ∃ new old, parseAlone deepPixels = .ok new ∧ parseAlone pixels = .ok old ∧
    Kept new.program old.program ∧ ¬ Kept old.program new.program := by
  obtain ⟨new, old, hnew, hold, hclean, hfailure⟩ := deepPixels_reports
  refine ⟨new, old, hnew, hold, (clean_iff_kept hnew hold).mp ?_, fun h => ?_⟩
  · simp [hclean]
  · exact (clean_iff_kept hold hnew).mpr h ⟨_, hfailure⟩

end Examples

end Sparsam.AuditContract
