import Sparsam.AuditReflexivity
import Sparsam.ClassReferences

set_option autoImplicit false

/-!
# What `compare_type` decides

The comparison goes by printed names; only the types inside two containers of
one kind are compared in turn. A name says what a type is only as long as the
two files mean the same by it and write nothing else for the same type.
-/
namespace Sparsam.ComparedTypes
open ThriftTypes ThriftScope ThriftParser ClassReferences Audit

/-- A definition's name as the audited file `root` writes it. -/
def qualifiedName (root p : TProgram) (name : String) : String :=
  if p.path = root.path then name else programName p.path ++ "." ++ name

section
variable (newScopes oldScopes : String → Scope) (newRoot oldRoot : TProgram)

/-- The same type once the typedefs are expanded. -/
inductive SameType : ThriftType → ThriftType → Prop where
  | baseType {n o : ThriftType} {base : TBase} {bin : Bool}
      (hn : Expands newScopes n (.baseType base bin))
      (ho : Expands oldScopes o (.baseType base bin)) : SameType n o
  | enum {n o : ThriftType} {e e' : TEnum} (hn : Expands newScopes n (.enum e))
      (ho : Expands oldScopes o (.enum e'))
      (hname : qualifiedName newRoot e.program e.name = qualifiedName oldRoot e'.program e'.name) :
      SameType n o
  | struct {n o : ThriftType} {s s' : TStruct} (hn : Expands newScopes n (.struct s))
      (ho : Expands oldScopes o (.struct s'))
      (hname : qualifiedName newRoot s.program s.name = qualifiedName oldRoot s'.program s'.name)
      (hunion : s.isUnion = s'.isUnion) (hxception : s.isXception = s'.isXception) : SameType n o
  | list {n o e e' : ThriftType} (hn : Expands newScopes n (.list e))
      (ho : Expands oldScopes o (.list e')) (he : SameType e e') : SameType n o
  | set {n o e e' : ThriftType} (hn : Expands newScopes n (.set e))
      (ho : Expands oldScopes o (.set e')) (he : SameType e e') : SameType n o
  | map {n o k k' v v' : ThriftType} (hn : Expands newScopes n (.map k v))
      (ho : Expands oldScopes o (.map k' v')) (hk : SameType k k') (hv : SameType v v') :
      SameType n o

/-- The places that meet when both types are walked through their containers. -/
def meetings : ThriftType → ThriftType → List (ThriftType × ThriftType)
  | .list new, .list old => meetings new old
  | .map newKey newVal, .map oldKey oldVal => meetings newKey oldKey ++ meetings newVal oldVal
  | .set new, .set old => meetings new old
  | new, old => [(new, old)]

/-- One name, and not that of a container. -/
def NamedAlike (p : ThriftType × ThriftType) : Prop :=
  p.1.getName = p.2.getName ∧ p.1.getName ≠ ""

end

/-- The type without its typedefs, at every depth. -/
inductive Unfolds (scopes : String → Scope) : ThriftType → ThriftType → Prop where
  | baseType {t : ThriftType} {base : TBase} {bin : Bool}
      (h : Expands scopes t (.baseType base bin)) : Unfolds scopes t (.baseType base bin)
  | enum {t : ThriftType} {e : TEnum} (h : Expands scopes t (.enum e)) : Unfolds scopes t (.enum e)
  | struct {t : ThriftType} {s : TStruct} (h : Expands scopes t (.struct s)) :
      Unfolds scopes t (.struct s)
  | list {t e u : ThriftType} (h : Expands scopes t (.list e)) (he : Unfolds scopes e u) :
      Unfolds scopes t (.list u)
  | set {t e u : ThriftType} (h : Expands scopes t (.set e)) (he : Unfolds scopes e u) :
      Unfolds scopes t (.set u)
  | map {t k v k' v' : ThriftType} (h : Expands scopes t (.map k v)) (hk : Unfolds scopes k k')
      (hv : Unfolds scopes v v') : Unfolds scopes t (.map k' v')

def isTypedef : ThriftType → Bool
  | .typedef _ _ _ | .forwardTypedef _ _ => true
  | _ => false

section
variable (newRoot oldRoot : TProgram)

/-- Two leaves that are no typedefs differ: base types of other kinds, definitions of other
    files, names or kinds, and all else that is not of one sort. -/
def Differ : ThriftType → ThriftType → Prop
  | .baseType base bin, .baseType base' bin' => base ≠ base' ∨ bin ≠ bin'
  | .enum e, .enum e' =>
    qualifiedName newRoot e.program e.name ≠ qualifiedName oldRoot e'.program e'.name
  | .struct s, .struct s' =>
    qualifiedName newRoot s.program s.name ≠ qualifiedName oldRoot s'.program s'.name ∨
      s.isUnion ≠ s'.isUnion ∨ s.isXception ≠ s'.isXception
  | _, _ => True

variable (newScopes oldScopes : String → Scope)

/-- The two types stand for the same leaves. -/
def Coincide (new old : ThriftType) : Prop := ∃ u u', Unfolds newScopes new u ∧
  Unfolds oldScopes old u' ∧ ∀ p ∈ meetings u u', ¬ Differ newRoot oldRoot p.1 p.2

/-- One name stands for two types: for string and binary, for definitions of two files or of
    two kinds, or for what two typedefs, or a typedef and a definition, stand for. -/
def Misleads (new old : ThriftType) : Prop :=
  NamedAlike (new, old) ∧
    if isTypedef new ∨ isTypedef old then ¬ Coincide newRoot oldRoot newScopes oldScopes new old
    else match new, old with
      | .baseType _ bin, .baseType _ bin' => bin ≠ bin'
      | .enum e, .enum e' =>
        qualifiedName newRoot e.program e.name ≠ qualifiedName oldRoot e'.program e'.name
      | .struct s, .struct s' =>
        qualifiedName newRoot s.program s.name ≠ qualifiedName oldRoot s'.program s'.name ∨
          s.isUnion ≠ s'.isUnion ∨ s.isXception ≠ s'.isXception
      | _, _ => True

/-- Two names stand for one type: a typedef is on one side or under another name, or a name
    with a dot is that of a definition of an included file. -/
def Disguises (new old : ThriftType) : Prop :=
  ¬ NamedAlike (new, old) ∧
    if isTypedef new ∨ isTypedef old then Coincide newRoot oldRoot newScopes oldScopes new old
    else match new, old with
      | .enum e, .enum e' =>
        qualifiedName newRoot e.program e.name = qualifiedName oldRoot e'.program e'.name
      | .struct s, .struct s' =>
        qualifiedName newRoot s.program s.name = qualifiedName oldRoot s'.program s'.name ∧
          s.isUnion = s'.isUnion ∧ s.isXception = s'.isXception
      | _, _ => False

/-- Two leaves that stand for two types. -/
def Part (new old : ThriftType) : Prop :=
  if isTypedef new ∨ isTypedef old then ¬ Coincide newRoot oldRoot newScopes oldScopes new old
  else Differ newRoot oldRoot new old

/-- A name that misleads does no harm beside a place with two names, nor a disguise beside one
    with two types. -/
structure Harmless (new old : ThriftType) : Prop where
  misleads : (∃ p ∈ meetings new old, Misleads newRoot oldRoot newScopes oldScopes p.1 p.2) →
    ∃ p ∈ meetings new old, ¬ NamedAlike p
  disguises : (∃ p ∈ meetings new old, Disguises newRoot oldRoot newScopes oldScopes p.1 p.2) →
    ∃ p ∈ meetings new old, Part newRoot oldRoot newScopes oldScopes p.1 p.2

end

section
variable {newScopes oldScopes : String → Scope} {newRoot oldRoot : TProgram}

theorem compareType_iff (new old : ThriftType) :
    compareType new old = true ↔ ∀ p ∈ meetings new old, NamedAlike p := by
  fun_induction meetings new old with
  | case1 new old ih =>
    unfold compareType
    exact ih
  | case2 newKey newVal oldKey oldVal ihk ihv =>
    unfold compareType
    rw [Bool.and_eq_true, ihk, ihv, List.forall_mem_append]
  | case3 new old ih =>
    unfold compareType
    exact ih
  | case4 new old hlist hmap hset =>
    have hleaf : compareType new old =
        if new.getName = "" ∧ old.getName = "" then false else new.getName == old.getName := by
      unfold compareType
      split
      · exact absurd rfl (hlist _ _ rfl)
      · exact absurd rfl (hmap _ _ _ _ rfl)
      · exact absurd rfl (hset _ _ rfl)
      · rfl
    rw [hleaf, List.forall_mem_singleton]
    unfold NamedAlike
    split
    · simp_all
    · rename_i hnamed
      rw [beq_iff_eq]
      exact ⟨fun h => ⟨h, fun hempty => hnamed ⟨hempty, h ▸ hempty⟩⟩, fun h => h.1⟩

theorem sameType_list {new old : ThriftType} :
    SameType newScopes oldScopes newRoot oldRoot (.list new) (.list old) ↔
      SameType newScopes oldScopes newRoot oldRoot new old := by
  have hn : Expands newScopes (.list new) (.list new) := expands_self rfl
  have ho : Expands oldScopes (.list old) (.list old) := expands_self rfl
  refine ⟨fun h => ?_, .list hn ho⟩
  cases h with
  | list hn' ho' he =>
    obtain rfl := ThriftType.list.inj (hn.unique hn')
    obtain rfl := ThriftType.list.inj (ho.unique ho')
    exact he
  | baseType hn' | enum hn' | struct hn' | set hn' | map hn' => cases hn.unique hn'

theorem sameType_set {new old : ThriftType} :
    SameType newScopes oldScopes newRoot oldRoot (.set new) (.set old) ↔
      SameType newScopes oldScopes newRoot oldRoot new old := by
  have hn : Expands newScopes (.set new) (.set new) := expands_self rfl
  have ho : Expands oldScopes (.set old) (.set old) := expands_self rfl
  refine ⟨fun h => ?_, .set hn ho⟩
  cases h with
  | set hn' ho' he =>
    obtain rfl := ThriftType.set.inj (hn.unique hn')
    obtain rfl := ThriftType.set.inj (ho.unique ho')
    exact he
  | baseType hn' | enum hn' | struct hn' | list hn' | map hn' => cases hn.unique hn'

theorem sameType_map {newKey newVal oldKey oldVal : ThriftType} :
    SameType newScopes oldScopes newRoot oldRoot (.map newKey newVal) (.map oldKey oldVal) ↔
      SameType newScopes oldScopes newRoot oldRoot newKey oldKey ∧
        SameType newScopes oldScopes newRoot oldRoot newVal oldVal := by
  have hn : Expands newScopes (.map newKey newVal) (.map newKey newVal) := expands_self rfl
  have ho : Expands oldScopes (.map oldKey oldVal) (.map oldKey oldVal) := expands_self rfl
  refine ⟨fun h => ?_, fun h => .map hn ho h.1 h.2⟩
  cases h with
  | map hn' ho' hk hv =>
    obtain ⟨rfl, rfl⟩ := ThriftType.map.inj (hn.unique hn')
    obtain ⟨rfl, rfl⟩ := ThriftType.map.inj (ho.unique ho')
    exact ⟨hk, hv⟩
  | baseType hn' | enum hn' | struct hn' | list hn' | set hn' => cases hn.unique hn'

theorem sameType_iff (new old : ThriftType) :
    SameType newScopes oldScopes newRoot oldRoot new old ↔
      ∀ p ∈ meetings new old, SameType newScopes oldScopes newRoot oldRoot p.1 p.2 := by
  fun_induction meetings new old with
  | case1 new old ih =>
    rw [sameType_list]
    exact ih
  | case2 newKey newVal oldKey oldVal ihk ihv =>
    rw [sameType_map, ihk, ihv, List.forall_mem_append]
  | case3 new old ih =>
    rw [sameType_set]
    exact ih
  | case4 new old =>
    rw [List.forall_mem_singleton]

/-- Not both are containers of one sort. -/
def IsLeaf : ThriftType → ThriftType → Prop
  | .list _, .list _ | .set _, .set _ | .map _ _, .map _ _ => False
  | _, _ => True

theorem isLeaf_of_other {new old : ThriftType} (hlist : ∀ e e', new = .list e → old ≠ .list e')
    (hmap : ∀ k v k' v', new = .map k v → old ≠ .map k' v')
    (hset : ∀ e e', new = .set e → old ≠ .set e') : IsLeaf new old := by
  unfold IsLeaf
  split
  · exact hlist _ _ rfl rfl
  · exact hset _ _ rfl rfl
  · exact hmap _ _ _ _ rfl rfl
  · trivial

theorem isLeaf_of_meeting (new old : ThriftType) : ∀ p ∈ meetings new old, IsLeaf p.1 p.2 := by
  fun_induction meetings new old with
  | case1 new old ih => exact ih
  | case2 newKey newVal oldKey oldVal ihk ihv => exact List.forall_mem_append.mpr ⟨ihk, ihv⟩
  | case3 new old ih => exact ih
  | case4 new old hlist hmap hset =>
    intro p hp
    obtain rfl := List.mem_singleton.mp hp
    exact isLeaf_of_other hlist hmap hset

theorem sameType_leaf {new old : ThriftType} (hn : getType newScopes new = none)
    (ho : getType oldScopes old = none) (hleaf : IsLeaf new old) :
    SameType newScopes oldScopes newRoot oldRoot new old ↔ ¬ Differ newRoot oldRoot new old := by
  have hnself := expands_self hn
  have hoself := expands_self ho
  constructor
  · intro h
    cases h with
    | baseType hn' ho' =>
      obtain rfl := hnself.unique hn'
      obtain rfl := hoself.unique ho'
      simp [Differ]
    | enum hn' ho' hname =>
      obtain rfl := hnself.unique hn'
      obtain rfl := hoself.unique ho'
      exact fun hdiffer => hdiffer hname
    | struct hn' ho' hname hunion hxception =>
      obtain rfl := hnself.unique hn'
      obtain rfl := hoself.unique ho'
      rintro (h | h | h)
      · exact h hname
      · exact h hunion
      · exact h hxception
    | list hn' ho' | set hn' ho' | map hn' ho' =>
      obtain rfl := hnself.unique hn'
      obtain rfl := hoself.unique ho'
      exact hleaf.elim
  · intro h
    unfold Differ at h
    split at h
    · simp only [not_or, not_not] at h
      obtain ⟨rfl, rfl⟩ := h
      exact .baseType hnself hoself
    · exact .enum hnself hoself (not_not.mp h)
    · simp only [not_or, not_not] at h
      exact .struct hnself hoself h.1 h.2.1 h.2.2
    · exact absurd trivial h

theorem sameType_expands {new old n o : ThriftType} (hn : Expands newScopes new n)
    (ho : Expands oldScopes old o) : SameType newScopes oldScopes newRoot oldRoot new old ↔
      SameType newScopes oldScopes newRoot oldRoot n o := by
  have hnself : ∀ v, Expands newScopes new v ↔ Expands newScopes n v := fun v =>
    ⟨fun h => hn.unique h ▸ expands_self hn.head, fun h => (expands_self hn.head).unique h ▸ hn⟩
  have hoself : ∀ v, Expands oldScopes old v ↔ Expands oldScopes o v := fun v =>
    ⟨fun h => ho.unique h ▸ expands_self ho.head, fun h => (expands_self ho.head).unique h ▸ ho⟩
  constructor
  · intro h
    cases h with
    | baseType hn' ho' => exact .baseType ((hnself _).mp hn') ((hoself _).mp ho')
    | enum hn' ho' hname => exact .enum ((hnself _).mp hn') ((hoself _).mp ho') hname
    | struct hn' ho' hname hunion hxception =>
      exact .struct ((hnself _).mp hn') ((hoself _).mp ho') hname hunion hxception
    | list hn' ho' he => exact .list ((hnself _).mp hn') ((hoself _).mp ho') he
    | set hn' ho' he => exact .set ((hnself _).mp hn') ((hoself _).mp ho') he
    | map hn' ho' hk hv => exact .map ((hnself _).mp hn') ((hoself _).mp ho') hk hv
  · intro h
    cases h with
    | baseType hn' ho' => exact .baseType ((hnself _).mpr hn') ((hoself _).mpr ho')
    | enum hn' ho' hname => exact .enum ((hnself _).mpr hn') ((hoself _).mpr ho') hname
    | struct hn' ho' hname hunion hxception =>
      exact .struct ((hnself _).mpr hn') ((hoself _).mpr ho') hname hunion hxception
    | list hn' ho' he => exact .list ((hnself _).mpr hn') ((hoself _).mpr ho') he
    | set hn' ho' he => exact .set ((hnself _).mpr hn') ((hoself _).mpr ho') he
    | map hn' ho' hk hv => exact .map ((hnself _).mpr hn') ((hoself _).mpr ho') hk hv

inductive SameHead : ThriftType → ThriftType → Prop where
  | refl (t : ThriftType) : SameHead t t
  | list (t u : ThriftType) : SameHead (.list t) (.list u)
  | set (t u : ThriftType) : SameHead (.set t) (.set u)
  | map (k v k' v' : ThriftType) : SameHead (.map k v) (.map k' v')

theorem Unfolds.expands {scopes : String → Scope} {t u : ThriftType} (h : Unfolds scopes t u) :
    ∃ v, Expands scopes t v ∧ SameHead v u := by
  cases h with
  | baseType h | enum h | struct h => exact ⟨_, h, .refl _⟩
  | list h he => exact ⟨_, h, .list _ _⟩
  | set h he => exact ⟨_, h, .set _ _⟩
  | map h hk hv => exact ⟨_, h, .map _ _ _ _⟩

theorem leaf_of_heads {n o u u' : ThriftType} (hn : SameHead n u) (ho : SameHead o u')
    (hleaf : IsLeaf u u') :
    IsLeaf n o ∧ (Differ newRoot oldRoot n o ↔ Differ newRoot oldRoot u u') := by
  cases hn with
  | refl =>
    cases ho with
    | refl => exact ⟨hleaf, Iff.rfl⟩
    | list | set | map => cases n <;> first | exact hleaf.elim | exact ⟨trivial, Iff.rfl⟩
  | list | set | map =>
    cases ho with
    | refl => cases o <;> first | exact hleaf.elim | exact ⟨trivial, Iff.rfl⟩
    | list | set | map => first | exact hleaf.elim | exact ⟨trivial, Iff.rfl⟩

theorem sameType_iff_unfolded {new old u u' : ThriftType} (hnew : Unfolds newScopes new u)
    (hold : Unfolds oldScopes old u') : SameType newScopes oldScopes newRoot oldRoot new old ↔
      ∀ p ∈ meetings u u', ¬ Differ newRoot oldRoot p.1 p.2 := by
  fun_induction meetings u u' generalizing new old with
  | case1 u u' ih =>
    cases hnew with
    | list h he =>
      cases hold with
      | list h' he' =>
        rw [sameType_expands h h', sameType_list]
        exact ih he he'
  | case2 k v k' v' ihk ihv =>
    cases hnew with
    | map h hk hv =>
      cases hold with
      | map h' hk' hv' =>
        rw [sameType_expands h h', sameType_map, List.forall_mem_append]
        exact and_congr (ihk hk hk') (ihv hv hv')
  | case3 u u' ih =>
    cases hnew with
    | set h he =>
      cases hold with
      | set h' he' =>
        rw [sameType_expands h h', sameType_set]
        exact ih he he'
  | case4 u u' hlist hmap hset =>
    have hleaf : IsLeaf u u' := isLeaf_of_other hlist hmap hset
    obtain ⟨n, hn, hnhead⟩ := hnew.expands
    obtain ⟨o, ho, hohead⟩ := hold.expands
    obtain ⟨hleaf', hdiffer⟩ := @leaf_of_heads newRoot oldRoot _ _ _ _ hnhead hohead hleaf
    rw [List.forall_mem_singleton, sameType_expands hn ho, sameType_leaf hn.head ho.head hleaf',
      hdiffer]

theorem coincide_of_sameType {new old : ThriftType}
    (h : SameType newScopes oldScopes newRoot oldRoot new old) :
    Coincide newRoot oldRoot newScopes oldScopes new old := by
  induction h with
  | baseType hn ho =>
    refine ⟨_, _, .baseType hn, .baseType ho, List.forall_mem_singleton.mpr ?_⟩
    simp [Differ]
  | enum hn ho hname =>
    exact ⟨_, _, .enum hn, .enum ho, List.forall_mem_singleton.mpr (not_not.mpr hname)⟩
  | struct hn ho hname hunion hxception =>
    refine ⟨_, _, .struct hn, .struct ho, List.forall_mem_singleton.mpr ?_⟩
    simp [Differ, hname, hunion, hxception]
  | list hn ho _ ih =>
    obtain ⟨u, u', hu, hu', hsame⟩ := ih
    exact ⟨_, _, .list hn hu, .list ho hu', hsame⟩
  | set hn ho _ ih =>
    obtain ⟨u, u', hu, hu', hsame⟩ := ih
    exact ⟨_, _, .set hn hu, .set ho hu', hsame⟩
  | map hn ho _ _ ihk ihv =>
    obtain ⟨k, k', hk, hk', hkey⟩ := ihk
    obtain ⟨v, v', hv, hv', hval⟩ := ihv
    exact ⟨_, _, .map hn hk hv, .map ho hk' hv', List.forall_mem_append.mpr ⟨hkey, hval⟩⟩

theorem coincide_iff {new old : ThriftType} :
    Coincide newRoot oldRoot newScopes oldScopes new old ↔
      SameType newScopes oldScopes newRoot oldRoot new old :=
  ⟨fun ⟨_, _, hu, hu', hsame⟩ => (sameType_iff_unfolded hu hu').mpr hsame, coincide_of_sameType⟩

theorem getType_of_not_typedef {scopes : String → Scope} {t : ThriftType}
    (h : isTypedef t = false) : getType scopes t = none := by
  cases t with
  | typedef | forwardTypedef => exact absurd h Bool.noConfusion
  | _ => rfl

theorem part_iff {new old : ThriftType} (hleaf : IsLeaf new old) :
    Part newRoot oldRoot newScopes oldScopes new old ↔
      ¬ SameType newScopes oldScopes newRoot oldRoot new old := by
  unfold Part
  split
  · rw [coincide_iff]
  · rename_i h
    simp only [not_or, Bool.not_eq_true] at h
    rw [sameType_leaf (getType_of_not_typedef h.1) (getType_of_not_typedef h.2) hleaf, not_not]

theorem tBaseName_injective {b b' : TBase} (h : tBaseName b = tBaseName b') : b = b' := by
  cases b <;> cases b' <;> first | rfl | exact absurd h (by decide)

theorem tBaseName_ne_empty (b : TBase) : tBaseName b ≠ "" := by
  cases b <;> decide

theorem misleads_iff {new old : ThriftType} (hleaf : IsLeaf new old) :
    Misleads newRoot oldRoot newScopes oldScopes new old ↔
      NamedAlike (new, old) ∧ ¬ SameType newScopes oldScopes newRoot oldRoot new old := by
  rw [← part_iff hleaf]
  unfold Misleads Part
  refine and_congr_right fun hnamed => ?_
  split
  · exact Iff.rfl
  · cases new <;> cases old <;> first | exact Iff.rfl | skip
    simp [Differ, tBaseName_injective hnamed.1]

theorem disguises_iff {new old : ThriftType} (hleaf : IsLeaf new old) :
    Disguises newRoot oldRoot newScopes oldScopes new old ↔
      ¬ NamedAlike (new, old) ∧ SameType newScopes oldScopes newRoot oldRoot new old := by
  rw [← not_not (a := SameType newScopes oldScopes newRoot oldRoot new old), ← part_iff hleaf]
  unfold Disguises Part
  refine and_congr_right fun hnamed => ?_
  split
  · exact not_not.symm
  · split
    · exact not_not.symm
    · simp only [Differ, not_or, not_not]
    · rename_i henum hstruct
      refine iff_of_false id (not_not.mpr ?_)
      unfold Differ
      split
      · by_contra hbase
        simp only [not_or, not_not] at hbase
        exact hnamed ⟨congrArg tBaseName hbase.1, tBaseName_ne_empty _⟩
      · exact (henum _ _ rfl rfl).elim
      · exact (hstruct _ _ rfl rfl).elim
      · trivial

/-- The comparison of two types is right exactly when no name at a place where they meet
    misleads it and none disguises what is the same. -/
theorem compareType_iff_sameType (new old : ThriftType) :
    (compareType new old = true ↔ SameType newScopes oldScopes newRoot oldRoot new old) ↔
      Harmless newRoot oldRoot newScopes oldScopes new old := by
  have hleaf := isLeaf_of_meeting new old
  rw [compareType_iff, sameType_iff]
  constructor
  · intro h
    refine ⟨fun ⟨p, hp, hmisleads⟩ => ?_, fun ⟨p, hp, hdisguises⟩ => ?_⟩
    · by_contra hnone
      simp only [not_exists, not_and, not_not] at hnone
      exact ((misleads_iff (hleaf p hp)).mp hmisleads).2 (h.mp hnone p hp)
    · obtain ⟨hnames, -⟩ := (disguises_iff (hleaf p hp)).mp hdisguises
      by_contra hnone
      simp only [not_exists, not_and] at hnone
      refine hnames (h.mpr (fun q hq => ?_) p hp)
      by_contra hpart
      exact hnone q hq ((part_iff (hleaf q hq)).mpr hpart)
  · intro h
    constructor
    · intro hnames p hp
      by_contra hnot
      obtain ⟨q, hq, hdiffer⟩ :=
        h.misleads ⟨p, hp, (misleads_iff (hleaf p hp)).mpr ⟨hnames p hp, hnot⟩⟩
      exact hdiffer (hnames q hq)
    · intro htypes p hp
      by_contra hnot
      obtain ⟨q, hq, hpart⟩ :=
        h.disguises ⟨p, hp, (disguises_iff (hleaf p hp)).mpr ⟨hnot, htypes p hp⟩⟩
      exact (part_iff (hleaf q hq)).mp hpart (htypes q hq)

end

section Examples
open AuditReflexivity

/-- `typedef i32 T` or `typedef i64 T`, and `struct S { 1: T a }`. -/
def typedefOf (base : TBase) : IdlFile where
  definitions := [.typedef (.baseType base false) "T",
    .struct false "S" [{ identifier := some 1, type := .identifier "T", name := "a" }]]

def aThrift : TProgram := ⟨"a.thrift", []⟩

def typedefType (base : TBase) : ThriftType := .typedef aThrift "T" (.baseType base false)

theorem parse_typedefOf (base : TBase) : ∃ pass, parseAlone (typedefOf base) = .ok pass ∧
    ∃ s ∈ pass.program.structs, ∃ f ∈ s.members, f.type = typedefType base := by
  cases base <;> exact ⟨_, rfl, _, List.mem_singleton.mpr rfl, _, List.mem_singleton.mpr rfl, rfl⟩

theorem expands_typedefType (scopes : String → Scope) (base : TBase) :
    Expands scopes (typedefType base) (.baseType base false) := ⟨2, rfl⟩

theorem typedefType_not_same {newScopes oldScopes : String → Scope} {newRoot oldRoot : TProgram} :
    ¬ SameType newScopes oldScopes newRoot oldRoot (typedefType .TYPE_I64)
      (typedefType .TYPE_I32) := by
  have hn := expands_typedefType newScopes .TYPE_I64
  have ho := expands_typedefType oldScopes .TYPE_I32
  intro h
  cases h with
  | baseType hn' ho' =>
    obtain ⟨rfl, -⟩ := ThriftType.baseType.inj (hn.unique hn')
    cases ho.unique ho'
  | enum hn' | struct hn' | list hn' | set hn' | map hn' => cases hn.unique hn'

/-- A typedef with another target is the same type for the audit. -/
theorem retargeted_compared : ∃ new old n o,
    parseAlone (typedefOf .TYPE_I64) = .ok new ∧ parseAlone (typedefOf .TYPE_I32) = .ok old ∧
    (∃ s ∈ new.program.structs, ∃ f ∈ s.members, f.type = n) ∧
    (∃ s ∈ old.program.structs, ∃ f ∈ s.members, f.type = o) ∧
    compareType n o = true ∧
    ¬ SameType (fun _ => new.scope) (fun _ => old.scope) new.program.info old.program.info n o := by
  obtain ⟨new, hnew, hn⟩ := parse_typedefOf .TYPE_I64
  obtain ⟨old, hold, ho⟩ := parse_typedefOf .TYPE_I32
  exact ⟨new, old, _, _, hnew, hold, hn, ho, by decide, typedefType_not_same⟩

end Examples

end Sparsam.ComparedTypes
