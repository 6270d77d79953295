import Mathlib.Data.Finset.Card
import Mathlib.Data.Finset.Filter
import Mathlib.Logic.Relation

set_option autoImplicit false

/-!
# Finite graphs without cycles

From a node of a finite graph that leads to no cycle every walk ends; on a cycle
a walk goes on for ever.
-/
namespace Sparsam.FiniteGraph
open Relation

variable {α : Type} {r : α → α → Prop}

/-- From no node that `a` leads to does a walk come back. -/
def AcyclicFrom (r : α → α → Prop) (a : α) : Prop :=
  ∀ b, ReflTransGen r a b → ¬ TransGen r b b

theorem AcyclicFrom.step {a b : α} (h : AcyclicFrom r a) (hab : r a b) : AcyclicFrom r b :=
  fun c hbc => h c (ReflTransGen.head hab hbc)

open Classical in
theorem card_reachable_lt {S : Finset α} {a b : α} (ha : a ∈ S) (h : AcyclicFrom r a)
    (hab : r a b) : (S.filter (ReflTransGen r b)).card < (S.filter (ReflTransGen r a)).card := by
  apply Finset.card_lt_card
  rw [Finset.ssubset_iff_of_subset]
  · refine ⟨a, Finset.mem_filter.mpr ⟨ha, .refl⟩, fun hback => ?_⟩
    have hcycle := TransGen.head' hab (Finset.mem_filter.mp hback).2
    exact h a .refl hcycle
  · intro c hc
    rw [Finset.mem_filter] at hc ⊢
    exact ⟨hc.1, ReflTransGen.head hab hc.2⟩

theorem acc_of_acyclic {S : Finset α} (closed : ∀ a ∈ S, ∀ b, r a b → b ∈ S) {a : α}
    (ha : a ∈ S) (h : AcyclicFrom r a) : Acc (flip r) a := by
  classical
  generalize hn : (S.filter (ReflTransGen r a)).card = n
  induction n using Nat.strongRecOn generalizing a with
  | ind n ih =>
    refine ⟨a, fun b hab => ?_⟩
    have hlt := card_reachable_lt ha h hab
    rw [hn] at hlt
    exact ih _ hlt (closed a ha b hab) (h.step hab) rfl

theorem next_of_cycle {a b : α} (hcycle : TransGen r a a) (hab : ReflTransGen r a b)
    (hba : ReflTransGen r b a) : ∃ c, r b c ∧ ReflTransGen r a c ∧ ReflTransGen r c a := by
  rcases hba.cases_head with rfl | ⟨c, hbc, hca⟩
  · obtain ⟨c, hbc, hca⟩ := TransGen.head'_iff.mp hcycle
    exact ⟨c, hbc, .single hbc, hca⟩
  · exact ⟨c, hbc, hab.tail hbc, hca⟩

end Sparsam.FiniteGraph
