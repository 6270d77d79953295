import Sparsam.AuditReflexivity
import Sparsam.ListPairing

set_option autoImplicit false

/-!
# What `compare_defaults` decides

A constant denotes a number, a string, a name, a list or a finite map. The audit
compares the entries of two maps in the order of their addresses, so it can find
a difference where there is none.
-/
namespace Sparsam.ComparedConstants
open ListPairing ThriftTypes FieldLists Audit AuditReflexivity

mutual
/-- Both denote the same constant; a map is the set of its entries. -/
def SameConstant : ConstValue → ConstValue → Prop := fun v w =>
  match v with
  | ⟨t, es, xs, s, n, d, i, _⟩ =>
    t = w.valType ∧
      match t with
      | .CV_INTEGER => n = w.intVal
      | .CV_DOUBLE => doubleEq d w.doubleVal = true
      | .CV_STRING => s = w.stringVal
      | .CV_IDENTIFIER => i = w.identifierVal
      | .CV_LIST => SameElems xs w.listVal
      | .CV_MAP => EntriesIn es w.mapVal ∧ ∀ b ∈ w.mapVal, HasEntry es b

def SameElems : List ConstValue → List ConstValue → Prop
  | [], ys => ys = []
  | _ :: _, [] => False
  | x :: xs, y :: ys => SameConstant x y ∧ SameElems xs ys

def EntriesIn : List (ConstValue × ConstValue) → List (ConstValue × ConstValue) → Prop
  | [], _ => True
  | (k, v) :: es, fs => (∃ b ∈ fs, SameConstant k b.1 ∧ SameConstant v b.2) ∧ EntriesIn es fs

def HasEntry : List (ConstValue × ConstValue) → ConstValue × ConstValue → Prop
  | [], _ => False
  | (k, v) :: es, b => (SameConstant k b.1 ∧ SameConstant v b.2) ∨ HasEntry es b
end

theorem sameElems_iff {xs ys : List ConstValue} :
    SameElems xs ys ↔ List.Forall₂ SameConstant xs ys := by
  induction xs generalizing ys with
  | nil =>
    unfold SameElems
    cases ys <;> simp
  | cons x xs ih =>
    cases ys with
    | nil => simp [SameElems]
    | cons y ys =>
      unfold SameElems
      rw [List.forall₂_cons]
      exact and_congr_right fun _ => ih

theorem entriesIn_iff {es fs : List (ConstValue × ConstValue)} :
    EntriesIn es fs ↔ ∀ a ∈ es, ∃ b ∈ fs, SameConstant a.1 b.1 ∧ SameConstant a.2 b.2 := by
  induction es with
  | nil => simp [EntriesIn]
  | cons a es ih =>
    unfold EntriesIn
    rw [ih, List.forall_mem_cons]

theorem hasEntry_iff {es : List (ConstValue × ConstValue)} {b : ConstValue × ConstValue} :
    HasEntry es b ↔ ∃ a ∈ es, SameConstant a.1 b.1 ∧ SameConstant a.2 b.2 := by
  induction es with
  | nil => simp [HasEntry]
  | cons a es ih =>
    unfold HasEntry
    rw [ih, List.exists_mem_cons_iff]

def SameDefault : Option ConstValue → Option ConstValue → Prop := Option.Rel SameConstant

theorem mem_reordered {es es' es'' : List (ConstValue × ConstValue)} (hperm : es.Perm es')
    (hkeys : List.Forall₂ (fun a b => Reordered a.1 b.1) es' es'')
    (hvals : List.Forall₂ (fun a b => Reordered a.2 b.2) es' es'') {a : ConstValue × ConstValue}
    (ha : a ∈ es) : ∃ b ∈ es'', Reordered a.1 b.1 ∧ Reordered a.2 b.2 := by
  have hall : List.Forall₂ (fun b a : ConstValue × ConstValue =>
      Reordered a.1 b.1 ∧ Reordered a.2 b.2) es'' es' := (forall₂_and hkeys hvals).flip
  exact mem_of_forall₂ hall (hperm.mem_iff.mp ha)

theorem elems_of_reordered {xs ys xs' ys' : List ConstValue}
    (ih : ∀ x ∈ xs, ∀ x' y y', Reordered x x' → Reordered y y' → SameConstant x' y' →
      SameConstant x y)
    (hx : List.Forall₂ Reordered xs xs') (hy : List.Forall₂ Reordered ys ys')
    (h : List.Forall₂ SameConstant xs' ys') : List.Forall₂ SameConstant xs ys := by
  induction hx generalizing ys ys' with
  | nil =>
    cases h
    cases hy
    exact .nil
  | cons hxx _ ihrest =>
    cases h with
    | cons hsame hrest =>
      cases hy with
      | cons hyy hy =>
        exact .cons (ih _ (by simp) _ _ _ hxx hyy hsame)
          (ihrest (fun z hz => ih z (by simp [hz])) hy hrest)

/-- What a constant denotes does not depend on the addresses. -/
theorem SameConstant.of_reordered {v v' w w' : ConstValue} (hv : Reordered v v')
    (hw : Reordered w w') (h : SameConstant v' w') : SameConstant v w := by
  induction v using ConstValue.induct generalizing v' w w' with
  | mk v ihmap ihlist =>
    obtain ⟨t, es, xs, s, n, d, i, e⟩ := v
    obtain ⟨hperm, hkeys, hvals, helems⟩ := hv
    obtain ⟨hperm', hkeys', hvals', helems'⟩ := hw
    unfold SameConstant at h ⊢
    refine ⟨h.1, ?_⟩
    obtain ⟨-, h⟩ := h
    cases t with
    | CV_INTEGER | CV_DOUBLE | CV_STRING | CV_IDENTIFIER => exact h
    | CV_LIST =>
      exact sameElems_iff.mpr (elems_of_reordered
        (fun x hx x' y y' hxx hyy hxy => ihlist x hx hxx hyy hxy) helems helems'
        (sameElems_iff.mp h))
    | CV_MAP =>
      obtain ⟨hleft, hright⟩ := h
      refine ⟨entriesIn_iff.mpr fun a ha => ?_, fun b hb => hasEntry_iff.mpr ?_⟩
      · obtain ⟨a', ha', hak, hav⟩ := mem_reordered hperm hkeys hvals ha
        obtain ⟨b', hb', hk, hval⟩ := entriesIn_iff.mp hleft a' ha'
        obtain ⟨b, hb, hbk, hbv⟩ := mem_of_reordered hperm' hkeys' hvals' hb'
        exact ⟨b, hb, (ihmap a ha).1 hak hbk hk, (ihmap a ha).2 hav hbv hval⟩
      · obtain ⟨b', hb', hbk, hbv⟩ := mem_reordered hperm' hkeys' hvals' hb
        obtain ⟨a', ha', hk, hval⟩ := hasEntry_iff.mp (hright b' hb')
        obtain ⟨a, ha, hak, hav⟩ := mem_of_reordered hperm hkeys hvals ha'
        exact ⟨a, ha, (ihmap a ha).1 hak hbk hk, (ihmap a ha).2 hav hbv hval⟩

theorem sameConstant_of_compareValues {v w : ConstValue} (h : compareValues v w = true) :
    SameConstant v w := by
  induction v using ConstValue.induct generalizing w with
  | mk v ihmap ihlist =>
    obtain ⟨t, es, xs, s, n, d, i, e⟩ := v
    obtain ⟨t', es', xs', s', n', d', i', e'⟩ := w
    unfold compareValues at h
    have ht : t = t' := by
      by_contra hne
      rw [if_pos hne] at h
      cases h
    subst ht
    rw [if_neg (by simp)] at h
    unfold SameConstant
    refine ⟨rfl, ?_⟩
    cases t with
    | CV_INTEGER | CV_STRING | CV_IDENTIFIER => simpa using h
    | CV_DOUBLE => exact h
    | CV_LIST =>
      exact sameElems_iff.mpr
        (forall₂_imp_mem (equalElems_iff.mp h) fun x hx y _ hxy => ihlist x hx hxy)
    | CV_MAP =>
      have hall : List.Forall₂ (fun a b => SameConstant a.1 b.1 ∧ SameConstant a.2 b.2) es es' :=
        forall₂_imp_mem (equalEntries_iff.mp h)
          fun a ha b _ hab => ⟨(ihmap a ha).1 hab.1, (ihmap a ha).2 hab.2⟩
      refine ⟨entriesIn_iff.mpr fun a ha => ?_, fun b hb => hasEntry_iff.mpr ?_⟩
      · exact mem_of_forall₂ hall.flip ha
      · exact mem_of_forall₂ hall hb

theorem sameDefault_of_compareDefaults {new new' old old' : Option ConstValue}
    (hnew : Option.Rel Reordered new new') (hold : Option.Rel Reordered old old')
    (h : compareDefaults new' old' = true) : SameDefault new old := by
  cases hnew with
  | none =>
    cases hold with
    | none => exact .none
    | some _ => cases h
  | some hv =>
    cases hold with
    | none => cases h
    | some hw => exact .some (.of_reordered hv hw (sameConstant_of_compareValues h))

/-- Two defaults are found the same, whatever the addresses, exactly when they are and no two
    different entries of corresponding maps can meet. -/
theorem compareDefaults_iff_same (new old : Option ConstValue) :
    (∀ new' old', Option.Rel Reordered new new' → Option.Rel Reordered old old' →
      (compareDefaults new' old' = true ↔ SameDefault new old)) ↔
      (SameDefault new old → Option.Rel Agree new old) := by
  constructor
  · intro h hsame
    cases hsame with
    | none => exact .none
    | @some v w hvw =>
      refine .some (AlwaysEqual.agree fun v' w' hv hw => ?_)
      exact (h _ _ (.some hv) (.some hw)).mpr (.some hvw)
  · intro h new' old' hnew hold
    refine ⟨sameDefault_of_compareDefaults hnew hold, fun hsame => ?_⟩
    cases h hsame with
    | none =>
      cases hnew
      cases hold
      rfl
    | some hagree =>
      cases hnew with
      | some hv =>
        cases hold with
        | some hw => exact hagree.alwaysEqual _ _ hv hw

/-- `map<i32, i32> M = {1: 2, 3: 4}`, with the first entry at the lower address. -/
def inOrder : ConstValue where
  valType := .CV_MAP
  mapVal := [({ valType := .CV_INTEGER, intVal := 1 }, { valType := .CV_INTEGER, intVal := 2 }),
    ({ valType := .CV_INTEGER, intVal := 3 }, { valType := .CV_INTEGER, intVal := 4 })]

def swapped : ConstValue := { inOrder with mapVal := inOrder.mapVal.reverse }

theorem inOrder_reordered : Reordered inOrder swapped :=
  .mk (List.reverse_perm _).symm (List.forall₂_same.mpr fun b _ => .refl b.1)
    (List.forall₂_same.mpr fun b _ => .refl b.2) .nil

theorem inOrder_sameDefault : SameDefault (some inOrder) (some inOrder) := by
  refine .some ?_
  simp [inOrder, SameConstant, EntriesIn, HasEntry]

/-- The map of both files denotes one constant and is reported as changed. -/
theorem swapped_compared : SameDefault (some inOrder) (some inOrder) ∧
    Option.Rel Reordered (some inOrder) (some swapped) ∧
    compareDefaults (some inOrder) (some swapped) = false :=
  ⟨inOrder_sameDefault, .some inOrder_reordered, by decide +kernel⟩

end Sparsam.ComparedConstants
