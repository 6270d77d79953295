import Mathlib.Data.List.Basic
import Mathlib.Data.List.Pairwise
import Mathlib.Order.Lattice

set_option autoImplicit false

/-!
# Binary search in a vector

`partitionPoint` is the loop of `std::lower_bound` and `std::upper_bound`,
`equalRange` the one of `std::equal_range`. Both halve the `len` positions from
`first` on and know the vector by the positions they look at only.
-/
namespace Sparsam.EqualRange
variable {α : Type}

/-- The first position whose element does not satisfy `p`. -/
def partitionPoint (p : α → Bool) (xs : List α) (first len : ℕ) : ℕ :=
  if len = 0 then first
  else
    match xs[first + len / 2]? with
    | none => first
    | some x =>
      if p x then partitionPoint p xs (first + len / 2 + 1) (len - len / 2 - 1)
      else partitionPoint p xs first (len / 2)
termination_by len
decreasing_by all_goals omega

/-- The positions between those before `v` and those after it. -/
def equalRange (lt : α → α → Bool) (xs : List α) (v : α) (first len : ℕ) : ℕ × ℕ :=
  if len = 0 then (first, first)
  else
    match xs[first + len / 2]? with
    | none => (first, first)
    | some x =>
      if lt x v then equalRange lt xs v (first + len / 2 + 1) (len - len / 2 - 1)
      else if lt v x then equalRange lt xs v first (len / 2)
      else
        (partitionPoint (fun y => lt y v) xs first (len / 2),
          partitionPoint (fun y => !lt v y) xs (first + len / 2 + 1) (len - len / 2 - 1))
termination_by len
decreasing_by all_goals omega

theorem mem_left_of_getElem? {as bs : List α} {i : ℕ} {x : α} (h : (as ++ bs)[i]? = some x)
    (hi : i < as.length) : x ∈ as := by
  rw [List.getElem?_append_left hi] at h
  exact List.mem_of_getElem? h

theorem mem_right_of_getElem? {as bs : List α} {i : ℕ} {x : α} (h : (as ++ bs)[i]? = some x)
    (hi : as.length ≤ i) : x ∈ bs := by
  rw [List.getElem?_append_right hi] at h
  exact List.mem_of_getElem? h

theorem lt_length_of_mem_left {as bs : List α} {i : ℕ} {x : α} (h : (as ++ bs)[i]? = some x)
    (hx : x ∉ bs) : i < as.length := by
  by_contra hi
  exact hx (mem_right_of_getElem? h (by omega))

theorem length_le_of_mem_right {as bs : List α} {i : ℕ} {x : α} (h : (as ++ bs)[i]? = some x)
    (hx : x ∉ as) : as.length ≤ i := by
  by_contra hi
  exact hx (mem_left_of_getElem? h (by omega))

theorem partitionPoint_append {p : α → Bool} {as bs : List α} (has : ∀ a ∈ as, p a = true)
    (hbs : ∀ b ∈ bs, p b = false) (first len : ℕ) (hfirst : first ≤ as.length)
    (hlast : as.length ≤ first + len) (hlen : first + len ≤ (as ++ bs).length) :
    partitionPoint p (as ++ bs) first len = as.length := by
  fun_induction partitionPoint p (as ++ bs) first len with
  | case1 first => omega
  | case2 first len hzero hnone =>
    have hout := List.getElem?_eq_none_iff.mp hnone
    omega
  | case3 first len hzero x hx hp ih =>
    have hmem : x ∉ bs := fun hb => by simp [hbs x hb] at hp
    have hpos := lt_length_of_mem_left hx hmem
    exact ih (by omega) (by omega) (by omega)
  | case4 first len hzero x hx hp ih =>
    have hmem : x ∉ as := fun ha => hp (has x ha)
    have hpos := length_le_of_mem_right hx hmem
    exact ih hfirst hpos (by omega)

/-- A vector of elements before `v`, elements equivalent to it and elements after it. -/
structure Ranges (lt : α → α → Bool) (v : α) (as es bs : List α) : Prop where
  before : ∀ a ∈ as, lt a v = true ∧ lt v a = false
  equal : ∀ e ∈ es, lt e v = false ∧ lt v e = false
  after : ∀ b ∈ bs, lt b v = false ∧ lt v b = true

theorem equalRange_append {lt : α → α → Bool} {v : α} {as es bs : List α}
    (h : Ranges lt v as es bs) (first len : ℕ) (hfirst : first ≤ as.length)
    (hlast : as.length + es.length ≤ first + len) (hlen : first + len ≤ (as ++ es ++ bs).length) :
    equalRange lt (as ++ es ++ bs) v first len = (as.length, as.length + es.length) := by
  have hlength : (as ++ es ++ bs).length = as.length + es.length + bs.length := by
    rw [List.length_append, List.length_append]
  fun_induction equalRange lt (as ++ es ++ bs) v first len with
  | case1 first =>
    have hes : es.length = 0 := by omega
    rw [hes, Nat.add_zero, show first = as.length by omega]
  | case2 first len hzero hnone =>
    have hout := List.getElem?_eq_none_iff.mp hnone
    omega
  | case3 first len hzero x hx hlt ih =>
    have hmem : x ∉ es ++ bs := by
      intro hx
      rcases List.mem_append.mp hx with he | hb
      · simp [(h.equal x he).1] at hlt
      · simp [(h.after x hb).1] at hlt
    rw [List.append_assoc] at hx
    have hpos := lt_length_of_mem_left hx hmem
    exact ih (by omega) (by omega) (by omega)
  | case4 first len hzero x hx hlt hgt ih =>
    have hmem : x ∉ as ++ es := by
      intro hx
      rcases List.mem_append.mp hx with ha | he
      · simp [(h.before x ha).2] at hgt
      · simp [(h.equal x he).2] at hgt
    have hpos := length_le_of_mem_right hx hmem
    rw [List.length_append] at hpos
    exact ih hfirst hpos (by omega)
  | case5 first len hzero x hx hlt hgt =>
    have hleft : x ∉ as := fun ha => hlt (h.before x ha).1
    have hright : x ∉ bs := fun hb => hgt (h.after x hb).2
    have hlo : as.length ≤ first + len / 2 := by
      rw [List.append_assoc] at hx
      exact length_le_of_mem_right hx hleft
    have hhi := lt_length_of_mem_left hx hright
    rw [List.length_append] at hhi
    have hlower := @partitionPoint_append α (fun y => lt y v) as (es ++ bs)
      (fun a ha => (h.before a ha).1) (fun y hy => (List.mem_append.mp hy).elim
        (fun he => (h.equal y he).1) fun hb => (h.after y hb).1)
      first (len / 2) hfirst hlo (by rw [← List.append_assoc]; omega)
    have hupper := @partitionPoint_append α (fun y => !lt v y) (as ++ es) bs
      (fun y hy => by
        rcases List.mem_append.mp hy with ha | he
        · simp [(h.before y ha).2]
        · simp [(h.equal y he).2])
      (fun b hb => by simp [(h.after b hb).2])
      (first + len / 2 + 1) (len - len / 2 - 1) (by rw [List.length_append]; omega)
      (by rw [List.length_append]; omega) (by omega)
    rw [← List.append_assoc] at hlower
    rw [hlower, hupper, List.length_append]

theorem exists_ranges {κ : Type} [LinearOrder κ] (key : α → κ) {xs : List α}
    (hxs : xs.Pairwise fun a b => key a < key b) (v : α) :
    ∃ as es bs, xs = as ++ es ++ bs ∧
      Ranges (fun a b => decide (key a < key b)) v as es bs := by
  induction xs with
  | nil => exact ⟨[], [], [], rfl, by constructor <;> simp⟩
  | cons x xs ih =>
    obtain ⟨hx, hxs⟩ := List.pairwise_cons.mp hxs
    rcases lt_trichotomy (key x) (key v) with hlt | heq | hgt
    · obtain ⟨as, es, bs, rfl, h⟩ := ih hxs
      refine ⟨x :: as, es, bs, rfl, ?_, h.equal, h.after⟩
      intro a ha
      rcases List.mem_cons.mp ha with rfl | ha
      · exact ⟨decide_eq_true hlt, decide_eq_false (lt_asymm hlt)⟩
      · exact h.before a ha
    · refine ⟨[], [x], xs, rfl, by simp, ?_, fun b hb => ?_⟩
      · simp [heq]
      · have hgt := heq ▸ hx b hb
        exact ⟨decide_eq_false (lt_asymm hgt), decide_eq_true hgt⟩
    · refine ⟨[], [], x :: xs, rfl, by simp, by simp, fun b hb => ?_⟩
      have hb : key v < key b := by
        rcases List.mem_cons.mp hb with rfl | hb
        · exact hgt
        · exact lt_trans hgt (hx b hb)
      exact ⟨decide_eq_false (lt_asymm hb), decide_eq_true hb⟩

theorem insertIdx_length_append (as bs : List α) (v : α) :
    (as ++ bs).insertIdx as.length v = as ++ v :: bs := by
  induction as with
  | nil => rfl
  | cons a as ih =>
    rw [List.cons_append, List.length_cons, List.insertIdx_succ_cons, ih]
    rfl

end Sparsam.EqualRange
