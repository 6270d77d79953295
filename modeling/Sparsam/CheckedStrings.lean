import Mathlib.Data.List.Basic

set_option autoImplicit false

/-!
# Checked operations on strings

Operations of strings and vectors that fault where the ones of C++ are
undefined or throw. A position that may be `npos` is an `Option`.
-/
namespace Sparsam.CheckedStrings

inductive Fault where
  | badPosition
  | emptyVector
  | overflow
  | nullPointer
  | assertion
deriving DecidableEq, Repr

abbrev Checked := Except Fault

/-- The computation ends without a fault, and its value has the property. -/
def Returns {α : Type} (x : Checked α) (p : α → Prop) : Prop := ∃ a, x = .ok a ∧ p a

namespace Returns
variable {α β : Type} {p : α → Prop} {q : β → Prop}

theorem pure {a : α} (h : p a) : Returns (Pure.pure a) p := ⟨a, rfl, h⟩

theorem bind {x : Checked α} {f : α → Checked β} (hx : Returns x p)
    (hf : ∀ a, p a → Returns (f a) q) : Returns (x >>= f) q := by
  obtain ⟨a, rfl, ha⟩ := hx
  exact hf a ha

theorem imp {x : Checked α} {p' : α → Prop} (hx : Returns x p) (h : ∀ a, p a → p' a) :
    Returns x p' := by
  obtain ⟨a, ha, hp⟩ := hx
  exact ⟨a, ha, h a hp⟩

theorem map {x : Checked α} {f : α → β} (hx : Returns x p) (h : ∀ a, p a → q (f a)) :
    Returns (f <$> x) q := by
  obtain ⟨a, rfl, ha⟩ := hx
  exact ⟨f a, rfl, h a ha⟩

/-- A step for each element: the vector keeps its length. -/
theorem mapM {f : α → Checked β} {l : List α} (h : ∀ a ∈ l, Returns (f a) fun _ => True) :
    Returns (l.mapM f) fun l' => l'.length = l.length := by
  induction l with
  | nil =>
    rw [List.mapM_nil]
    exact Returns.pure rfl
  | cons a l ih =>
    rw [List.mapM_cons]
    refine (h a (by simp)).bind fun b _ => (ih fun a ha => h a (by simp [ha])).bind fun l' hl' => ?_
    exact Returns.pure (by rw [List.length_cons, List.length_cons, hl'])

theorem foldlM {f : β → α → Checked β} {l : List α} (h : ∀ b a, Returns (f b a) fun _ => True)
    (b : β) : Returns (l.foldlM f b) fun _ => True := by
  induction l generalizing b with
  | nil => exact Returns.pure trivial
  | cons a l ih =>
    rw [List.foldlM_cons]
    exact (h b a).bind fun b _ => ih b

end Returns

section Strings
variable {α : Type}

def charAt (s : List α) (pos : ℕ) : Checked α :=
  match s[pos]? with
  | some c => .ok c
  | none => .error .badPosition

def substr (s : List α) (pos : ℕ) (n : Option ℕ) : Checked (List α) :=
  if pos ≤ s.length then
    .ok (match n with
      | some n => (s.drop pos).take n
      | none => s.drop pos)
  else .error .badPosition

def erase (s : List α) (pos : ℕ) (n : Option ℕ) : Checked (List α) :=
  if pos ≤ s.length then
    .ok (s.take pos ++ match n with
      | some n => s.drop (pos + n)
      | none => [])
  else .error .badPosition

/-- The first position from `pos` on of a character with the property. -/
def find (p : α → Bool) (s : List α) (pos : ℕ) : Option ℕ :=
  ((s.drop pos).findIdx? p).map (pos + ·)

/-- The last position of a character with the property. -/
def findLast (p : α → Bool) (s : List α) : Option ℕ :=
  (s.reverse.findIdx? p).map (s.length - 1 - ·)

def front : List α → Checked α
  | [] => .error .emptyVector
  | a :: _ => .ok a

def afterBegin : List α → Checked (List α)
  | [] => .error .emptyVector
  | _ :: l => .ok l

theorem charAt_returns {s : List α} {pos : ℕ} (h : pos < s.length) :
    Returns (charAt s pos) fun _ => True := by
  refine ⟨s[pos], ?_, trivial⟩
  rw [charAt, List.getElem?_eq_getElem h]

theorem substr_returns {s : List α} {pos : ℕ} (h : pos ≤ s.length) (n : Option ℕ) :
    Returns (substr s pos n) fun _ => True := by
  unfold substr
  rw [if_pos h]
  exact ⟨_, rfl, trivial⟩

theorem erase_returns {s : List α} {pos : ℕ} (h : pos ≤ s.length) (n : Option ℕ) :
    Returns (erase s pos n) fun _ => True := by
  unfold erase
  rw [if_pos h]
  exact ⟨_, rfl, trivial⟩

theorem find_bounds {p : α → Bool} {s : List α} {last pos : ℕ} (h : find p s last = some pos) :
    last ≤ pos ∧ pos < s.length := by
  obtain ⟨i, hi, rfl⟩ := Option.map_eq_some_iff.mp h
  obtain ⟨hlt, -⟩ := List.findIdx?_eq_some_iff_getElem.mp hi
  rw [List.length_drop] at hlt
  omega

theorem find_eq_none {p : α → Bool} {s : List α} {last : ℕ} :
    find p s last = none ↔ ∀ c ∈ s.drop last, p c = false := by
  unfold find
  rw [Option.map_eq_none_iff, List.findIdx?_eq_none_iff]

theorem find_mem {p : α → Bool} {s : List α} {last pos : ℕ} (h : find p s last = some pos) :
    ∃ c ∈ s.drop last, p c = true := by
  by_contra hnone
  rw [find_eq_none.mpr fun c hc => Bool.eq_false_iff.mpr fun hp => hnone ⟨c, hc, hp⟩] at h
  cases h

theorem findLast_bound {p : α → Bool} {s : List α} {pos : ℕ} (h : findLast p s = some pos) :
    pos < s.length := by
  obtain ⟨i, hi, rfl⟩ := Option.map_eq_some_iff.mp h
  obtain ⟨hlt, -⟩ := List.findIdx?_eq_some_iff_getElem.mp hi
  rw [List.length_reverse] at hlt
  omega

end Strings

end Sparsam.CheckedStrings
