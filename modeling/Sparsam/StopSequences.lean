import Mathlib.Data.List.Basic

set_option autoImplicit false

/-!
# Computations that stop like a sequence of checks

A computation that may stop is compared with a list of checks: it stops where
the list does, and its value does not depend on them.
-/
namespace Sparsam.StopSequences

section Checks
variable {ι ε : Type} {check : ι → Except ε Unit}

theorem forM_append (before after : List ι) :
    (before ++ after).forM check = (before.forM check >>= fun _ => after.forM check) := by
  induction before with
  | nil => rfl
  | cons item before ih =>
    change (check item >>= fun _ => (before ++ after).forM check) = _
    rw [ih]
    exact (bind_assoc (check item) _ _).symm

theorem forM_ok {items : List ι} (h : ∀ item ∈ items, check item = .ok ()) :
    items.forM check = .ok () := by
  induction items with
  | nil => rfl
  | cons item items ih =>
    change (check item >>= fun _ => items.forM check) = _
    rw [h item (by simp)]
    exact ih fun item hitem => h item (by simp [hitem])

/-- A list of checks stops at the first one that does. -/
theorem forM_eq_error_iff {items : List ι} {e : ε} :
    items.forM check = .error e ↔ ∃ before item after, items = before ++ item :: after ∧
      (∀ i ∈ before, check i = .ok ()) ∧ check item = .error e := by
  constructor
  · intro h
    induction items with
    | nil => cases h
    | cons item items ih =>
      change (check item >>= fun _ => items.forM check) = _ at h
      cases hitem : check item with
      | error e' =>
        rw [hitem] at h
        cases h
        exact ⟨[], item, items, rfl, by simp, hitem⟩
      | ok u =>
        rw [hitem] at h
        obtain ⟨before, stop, after, rfl, hbefore, hstop⟩ := ih h
        refine ⟨item :: before, stop, after, rfl, ?_, hstop⟩
        rw [List.forall_mem_cons]
        exact ⟨hitem, hbefore⟩
  · rintro ⟨before, item, after, rfl, hbefore, hitem⟩
    rw [forM_append, forM_ok hbefore]
    change (check item >>= fun _ => after.forM check) = _
    rw [hitem]
    rfl

end Checks

section Like
variable {ι ε : Type} {check : ι → Except ε Unit} {α β : Type}

/-- The computation stops where the checks stop, and ends in a value with the property. -/
def StopsLike (check : ι → Except ε Unit) (items : List ι) (x : Except ε α) (p : α → Prop) : Prop :=
  ∃ a, p a ∧ x = (items.forM check >>= fun _ => pure a)

namespace StopsLike
variable {items more : List ι} {x : Except ε α} {p : α → Prop} {q : β → Prop}

theorem pure {a : α} (h : p a) : StopsLike check [] (Pure.pure a) p := ⟨a, h, rfl⟩

theorem bind {f : α → Except ε β} (hx : StopsLike check items x p)
    (hf : ∀ a, p a → StopsLike check more (f a) q) :
    StopsLike check (items ++ more) (x >>= f) q := by
  obtain ⟨a, ha, rfl⟩ := hx
  obtain ⟨b, hb, hfa⟩ := hf a ha
  refine ⟨b, hb, ?_⟩
  rw [forM_append, bind_assoc, bind_assoc]
  congr 1
  funext _
  exact hfa

theorem of_ok {a : α} {f : α → Except ε β} (hx : x = .ok a) (hf : StopsLike check more (f a) q) :
    StopsLike check more (x >>= f) q := by
  rw [hx]
  exact hf

theorem then_ok {f : α → Except ε β} (hx : StopsLike check items x p)
    (hf : ∀ a, p a → ∃ b, q b ∧ f a = .ok b) : StopsLike check items (x >>= f) q := by
  rw [← List.append_nil items]
  exact hx.bind fun a ha => hf a ha

theorem stop {item : ι} {e : ε} {a : α} (h : p a) (hitem : check item = .error e) :
    StopsLike check (item :: items) (.error e) p := by
  refine ⟨a, h, ?_⟩
  change _ = ((check item >>= fun _ => items.forM check) >>= fun _ => Pure.pure a)
  rw [hitem]
  rfl

theorem go {item : ι} (hitem : check item = .ok ()) (hx : StopsLike check items x p) :
    StopsLike check (item :: items) x p := by
  obtain ⟨a, ha, rfl⟩ := hx
  refine ⟨a, ha, ?_⟩
  change _ = ((check item >>= fun _ => items.forM check) >>= fun _ => Pure.pure a)
  rw [hitem]
  rfl

theorem imp {p' : α → Prop} (hx : StopsLike check items x p) (h : ∀ a, p a → p' a) :
    StopsLike check items x p' := by
  obtain ⟨a, ha, rfl⟩ := hx
  exact ⟨a, h a ha, rfl⟩

theorem error_iff (hx : StopsLike check items x p) {e : ε} :
    x = .error e ↔ items.forM check = .error e := by
  obtain ⟨a, -, rfl⟩ := hx
  cases hitems : items.forM check with
  | error e' =>
    change Except.error e' = Except.error e ↔ _
    rw [Except.error.injEq, Except.error.injEq]
  | ok u => exact iff_of_false (fun h => by cases h) (fun h => by cases h)

end StopsLike

end Like

end Sparsam.StopSequences
