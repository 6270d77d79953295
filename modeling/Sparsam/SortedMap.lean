import Mathlib.Data.List.Basic

set_option autoImplicit false

/-!
# Ordered maps

`std::map<κ, ν>`: an association list with strictly increasing keys, the order
in which iteration visits them.
-/
namespace Sparsam

structure SortedMap (κ ν : Type) [LT κ] where
  entries : List (κ × ν)
  sorted : entries.Pairwise (fun a b => a.1 < b.1)

namespace SortedMap
variable {κ ν : Type} [LT κ] [DecidableEq κ] [DecidableLT κ]

def empty : SortedMap κ ν := ⟨[], .nil⟩

def find? (m : SortedMap κ ν) (k : κ) : Option ν := m.entries.lookup k

def insertList (k : κ) (v : ν) : List (κ × ν) → List (κ × ν)
  | [] => [(k, v)]
  | (k', v') :: rest =>
    if k < k' then (k, v) :: (k', v') :: rest
    else if k = k' then (k, v) :: rest
    else (k', v') :: insertList k v rest

theorem mem_insertList {k : κ} {v : ν} {es : List (κ × ν)} {e : κ × ν}
    (h : e ∈ insertList k v es) : e = (k, v) ∨ e ∈ es := by
  induction es with
  | nil => simpa [insertList] using h
  | cons f rest ih =>
    simp only [insertList] at h
    split_ifs at h with hlt heq
    · simpa using h
    · rcases List.mem_cons.mp h with h | h
      · exact .inl h
      · exact .inr (List.mem_cons_of_mem _ h)
    · rcases List.mem_cons.mp h with h | h
      · exact .inr (by simp [h])
      · exact (ih h).imp_right (List.mem_cons_of_mem _)

omit [LT κ] [DecidableLT κ] in
theorem lookup_cons_if (j : κ) (f : κ × ν) (es : List (κ × ν)) :
    (f :: es).lookup j = if j = f.1 then some f.2 else es.lookup j := by
  obtain ⟨k, v⟩ := f
  by_cases h : j = k
  · simp [h]
  · have hb : (j == k) = false := by simpa using h
    simp [List.lookup_cons, hb, h]

omit [LT κ] [DecidableLT κ] in
theorem mem_of_lookup {es : List (κ × ν)} {k : κ} {v : ν} (h : es.lookup k = some v) :
    (k, v) ∈ es := by
  induction es with
  | nil => simp at h
  | cons f rest ih =>
    rw [lookup_cons_if] at h
    split_ifs at h with hk
    · simp only [Option.some.injEq] at h
      simp [hk, ← h]
    · exact List.mem_cons_of_mem _ (ih h)

theorem lookup_insertList (k j : κ) (v : ν) (es : List (κ × ν)) :
    (insertList k v es).lookup j = if j = k then some v else es.lookup j := by
  induction es with
  | nil => simp [insertList, lookup_cons_if]
  | cons f rest ih =>
    obtain ⟨k', v'⟩ := f
    by_cases hlt : k < k'
    · simp only [insertList, hlt, ↓reduceIte, lookup_cons_if]
    · by_cases heq : k = k'
      · subst heq
        simp only [insertList, hlt, ↓reduceIte, lookup_cons_if]
        by_cases hj : j = k <;> simp [hj]
      · simp only [insertList, hlt, heq, ↓reduceIte, lookup_cons_if, ih]
        by_cases hj : j = k
        · simp [hj, heq]
        · simp [hj]

variable [LE κ] [Std.IsLinearOrder κ] [Std.LawfulOrderLT κ]

theorem insertList_sorted (k : κ) (v : ν) {es : List (κ × ν)}
    (h : es.Pairwise (fun a b => a.1 < b.1)) :
    (insertList k v es).Pairwise (fun a b => a.1 < b.1) := by
  induction es with
  | nil => simp [insertList]
  | cons f rest ih =>
    obtain ⟨hf, hrest⟩ := List.pairwise_cons.mp h
    simp only [insertList]
    split_ifs with hlt heq
    · refine List.pairwise_cons.mpr ⟨?_, h⟩
      intro e he
      rcases List.mem_cons.mp he with rfl | he
      · exact hlt
      · exact Std.lt_trans hlt (hf e he)
    · subst heq
      exact List.pairwise_cons.mpr ⟨hf, hrest⟩
    · refine List.pairwise_cons.mpr ⟨?_, ih hrest⟩
      intro e he
      rcases mem_insertList he with rfl | he
      · exact Std.lt_of_le_of_ne (Std.not_lt.mp hlt) (Ne.symm heq)
      · exact hf e he

def insert (m : SortedMap κ ν) (k : κ) (v : ν) : SortedMap κ ν :=
  ⟨insertList k v m.entries, insertList_sorted k v m.sorted⟩

theorem find?_insert (m : SortedMap κ ν) (k j : κ) (v : ν) :
    (m.insert k v).find? j = if j = k then some v else m.find? j :=
  lookup_insertList k j v m.entries

omit [DecidableLT κ] [Std.IsLinearOrder κ] in
theorem lookup_of_mem {es : List (κ × ν)} (h : es.Pairwise (fun a b => a.1 < b.1))
    {e : κ × ν} (he : e ∈ es) : es.lookup e.1 = some e.2 := by
  induction es with
  | nil => simp at he
  | cons f rest ih =>
    obtain ⟨hf, hrest⟩ := List.pairwise_cons.mp h
    rw [lookup_cons_if]
    rcases List.mem_cons.mp he with rfl | he
    · simp
    · have hne : e.1 ≠ f.1 := fun heq => Std.lt_irrefl (heq ▸ hf e he)
      rw [if_neg hne]
      exact ih hrest he

omit [DecidableLT κ] [Std.IsLinearOrder κ] in
/-- An entry met by iteration is the one `find` gives for its key. -/
theorem find?_eq_some_iff (m : SortedMap κ ν) (k : κ) (v : ν) :
    m.find? k = some v ↔ (k, v) ∈ m.entries :=
  ⟨mem_of_lookup, fun h => lookup_of_mem m.sorted h⟩

theorem length_insertList (k : κ) (v : ν) {es : List (κ × ν)}
    (h : es.Pairwise (fun a b => a.1 < b.1)) :
    (insertList k v es).length = es.length + if (es.lookup k).isSome then 0 else 1 := by
  induction es with
  | nil => rfl
  | cons f rest ih =>
    obtain ⟨hf, hrest⟩ := List.pairwise_cons.mp h
    obtain ⟨k', v'⟩ := f
    rw [lookup_cons_if]
    by_cases hlt : k < k'
    · have hne : k ≠ k' := fun heq => Std.lt_irrefl (heq ▸ hlt)
      have hnone : rest.lookup k = none := by
        rw [List.lookup_eq_none_iff]
        intro e he
        have hlater : k < e.1 := Std.lt_trans hlt (hf e he)
        simpa using fun heq : k = e.1 => Std.lt_irrefl (heq ▸ hlater)
      simp [insertList, hlt, hne, hnone]
    · by_cases heq : k = k'
      · simp [insertList, heq, Std.lt_irrefl]
      · simp only [insertList, hlt, heq, if_false, List.length_cons, ih hrest]
        omega

/-- `m[k] = v` for each entry in turn. -/
def insertAll (m : SortedMap κ ν) (es : List (κ × ν)) : SortedMap κ ν :=
  es.foldl (fun m e => m.insert e.1 e.2) m

theorem length_insertAll_le (m : SortedMap κ ν) (es : List (κ × ν)) :
    (m.insertAll es).entries.length ≤ m.entries.length + es.length := by
  induction es generalizing m with
  | nil => exact Nat.le_refl _
  | cons e es ih =>
    have hinsert := length_insertList e.1 e.2 m.sorted
    have hrest := ih (m.insert e.1 e.2)
    change ((m.insert e.1 e.2).insertAll es).entries.length ≤ _
    change (m.insert e.1 e.2).entries.length = _ at hinsert
    rw [List.length_cons]
    split at hinsert <;> omega

/-- Every entry takes a place of its own exactly when the keys are all new. -/
theorem length_insertAll_iff (m : SortedMap κ ν) (es : List (κ × ν)) :
    (m.insertAll es).entries.length = m.entries.length + es.length ↔
      (es.map Prod.fst).Nodup ∧ ∀ e ∈ es, m.find? e.1 = none := by
  induction es generalizing m with
  | nil => simp [insertAll]
  | cons e es ih =>
    have hinsert := length_insertList e.1 e.2 m.sorted
    have hle := length_insertAll_le (m.insert e.1 e.2) es
    have hrest := ih (m.insert e.1 e.2)
    change ((m.insert e.1 e.2).insertAll es).entries.length = _ ↔ _
    change (m.insert e.1 e.2).entries.length = _ at hinsert
    change _ = m.entries.length + if (m.find? e.1).isSome then 0 else 1 at hinsert
    rw [List.length_cons, List.map_cons, List.nodup_cons, List.forall_mem_cons]
    cases hfind : m.find? e.1 with
    | some w =>
      rw [hfind] at hinsert
      simp only [Option.isSome_some, if_true] at hinsert
      have hne : ((m.insert e.1 e.2).insertAll es).entries.length ≠
          m.entries.length + (es.length + 1) := by omega
      simp [hne]
    | none =>
      rw [hfind] at hinsert
      simp only [Option.isSome_none, Bool.false_eq_true, if_false] at hinsert
      have hcount : m.entries.length + (es.length + 1) =
          (m.insert e.1 e.2).entries.length + es.length := by omega
      rw [hcount, hrest]
      constructor
      · rintro ⟨hnodup, hnew⟩
        have hkeys : ∀ f ∈ es, f.1 ≠ e.1 ∧ m.find? f.1 = none := by
          intro f hf
          have hnone := hnew f hf
          rw [find?_insert] at hnone
          split_ifs at hnone with heq
          exact ⟨heq, hnone⟩
        refine ⟨⟨fun hmem => ?_, hnodup⟩, rfl, fun f hf => (hkeys f hf).2⟩
        obtain ⟨f, hf, heq⟩ := List.mem_map.mp hmem
        exact (hkeys f hf).1 heq
      · rintro ⟨⟨hfresh, hnodup⟩, -, hnew⟩
        refine ⟨hnodup, fun f hf => ?_⟩
        have hne : f.1 ≠ e.1 := fun heq => hfresh (heq ▸ List.mem_map_of_mem hf)
        rw [find?_insert, if_neg hne]
        exact hnew f hf

theorem find?_insertAll (m : SortedMap κ ν) {es : List (κ × ν)} (h : (es.map Prod.fst).Nodup) :
    ∀ e ∈ es, (m.insertAll es).find? e.1 = some e.2 := by
  have hkeep : ∀ (es : List (κ × ν)) (m : SortedMap κ ν) (k : κ), k ∉ es.map Prod.fst →
      (m.insertAll es).find? k = m.find? k := by
    intro es
    induction es with
    | nil => exact fun m k _ => rfl
    | cons e es ih =>
      intro m k hk
      rw [List.map_cons, List.mem_cons, not_or] at hk
      exact (ih _ k hk.2).trans ((find?_insert m e.1 k e.2).trans (if_neg hk.1))
  induction es generalizing m with
  | nil => exact fun e he => absurd he List.not_mem_nil
  | cons e es ih =>
    rw [List.map_cons, List.nodup_cons] at h
    intro f hf
    rcases List.mem_cons.mp hf with rfl | hf
    · exact (hkeep es _ _ h.1).trans ((find?_insert m f.1 f.1 f.2).trans (if_pos rfl))
    · exact ih _ h.2 f hf

/-- The last element of its key in a list. -/
def Last {α : Type} (key : α → κ) (es : List α) (e : α) : Prop :=
  ∃ before after, es = before ++ e :: after ∧ ∀ f ∈ after, key f ≠ key e

omit [LT κ] [DecidableEq κ] [DecidableLT κ] [LE κ] [Std.IsLinearOrder κ] [Std.LawfulOrderLT κ] in
theorem last_cons {α : Type} {key : α → κ} {f : α} {es : List α} {e : α} :
    Last key (f :: es) e ↔ (e = f ∧ ∀ g ∈ es, key g ≠ key e) ∨ Last key es e := by
  constructor
  · rintro ⟨before, after, heq, hfresh⟩
    cases before with
    | nil =>
      obtain ⟨rfl, rfl⟩ := List.cons.inj heq
      exact .inl ⟨rfl, hfresh⟩
    | cons b before =>
      obtain ⟨rfl, rfl⟩ := List.cons.inj heq
      exact .inr ⟨before, after, rfl, hfresh⟩
  · rintro (⟨rfl, hfresh⟩ | ⟨before, after, rfl, hfresh⟩)
    · exact ⟨[], es, rfl, hfresh⟩
    · exact ⟨f :: before, after, rfl, hfresh⟩

theorem mem_insertAll_iff (m : SortedMap κ ν) (es : List (κ × ν)) (e : κ × ν) :
    e ∈ (m.insertAll es).entries ↔
      Last Prod.fst es e ∨ (e ∈ m.entries ∧ ∀ f ∈ es, f.1 ≠ e.1) := by
  induction es generalizing m with
  | nil =>
    have hnil : ¬ Last Prod.fst ([] : List (κ × ν)) e := by
      rintro ⟨before, after, heq, -⟩
      simp at heq
    simp [insertAll, hnil]
  | cons f es ih =>
    have hinsert : e ∈ (m.insert f.1 f.2).entries ↔ e = f ∨ (e ∈ m.entries ∧ f.1 ≠ e.1) := by
      rw [← find?_eq_some_iff _ e.1 e.2, find?_insert, ← find?_eq_some_iff m e.1 e.2]
      by_cases hkey : e.1 = f.1
      · rw [if_pos hkey, Option.some.injEq]
        constructor
        · exact fun hv => .inl (Prod.ext hkey hv.symm)
        · rintro (rfl | ⟨-, hne⟩)
          · rfl
          · exact absurd hkey.symm hne
      · rw [if_neg hkey]
        constructor
        · exact fun hfind => .inr ⟨hfind, fun heq => hkey heq.symm⟩
        · rintro (rfl | ⟨hfind, -⟩)
          · exact absurd rfl hkey
          · exact hfind
    change e ∈ ((m.insert f.1 f.2).insertAll es).entries ↔ _
    rw [ih, hinsert, last_cons, List.forall_mem_cons]
    tauto

end SortedMap
end Sparsam
