import Mathlib.Data.List.Forall2

set_option autoImplicit false

/-!
# Lists taken pair by pair

`List.Forall₂` with the elements it ranges over, two and three lists at a time.
-/
namespace Sparsam.ListPairing
variable {α β γ δ : Type}

theorem mem_of_forall₂ {R : α → β → Prop} {as : List α} {bs : List β}
    (h : List.Forall₂ R as bs) {b : β} (hb : b ∈ bs) : ∃ a ∈ as, R a b := by
  induction h with
  | nil => cases hb
  | cons hab _ ih =>
    rcases List.mem_cons.mp hb with rfl | hb
    · exact ⟨_, by simp, hab⟩
    · obtain ⟨a, ha, hr⟩ := ih hb
      exact ⟨a, by simp [ha], hr⟩

theorem forall₂_imp_mem {R S : α → β → Prop} {as : List α} {bs : List β}
    (h : List.Forall₂ R as bs) (himp : ∀ a ∈ as, ∀ b ∈ bs, R a b → S a b) :
    List.Forall₂ S as bs := by
  induction h with
  | nil => exact .nil
  | @cons a b as bs hab _ ih =>
    exact .cons (himp a (by simp) b (by simp) hab)
      (ih fun a ha b hb => himp a (by simp [ha]) b (by simp [hb]))

theorem forall₂_of_zip {R : α → β → Prop} {as : List α} {bs : List β}
    (hlen : bs.length = as.length) (h : ∀ p ∈ as.zip bs, R p.1 p.2) : List.Forall₂ R as bs :=
  List.forall₂_iff_zip.mpr ⟨hlen.symm, fun {a b} hab => h (a, b) hab⟩

theorem forall₂_of_all {R : α → β → Prop} {as : List α} {bs : List β}
    (hlen : as.length = bs.length) (h : ∀ a ∈ as, ∀ b ∈ bs, R a b) : List.Forall₂ R as bs := by
  apply forall₂_of_zip hlen.symm
  intro p hp
  obtain ⟨ha, hb⟩ := List.of_mem_zip hp
  exact h _ ha _ hb

theorem forall₂_and {R S : α → β → Prop} {as : List α} {bs : List β}
    (hr : List.Forall₂ R as bs) (hs : List.Forall₂ S as bs) :
    List.Forall₂ (fun a b => R a b ∧ S a b) as bs :=
  hr.mp (fun _ _ => And.intro) hs

theorem forall₂_iff {R S : α → β → Prop} {as : List α} {bs : List β}
    (h : List.Forall₂ (fun a b => R a b ↔ S a b) as bs) :
    List.Forall₂ R as bs ↔ List.Forall₂ S as bs := by
  constructor
  · exact fun hr => (forall₂_and h hr).imp fun a b hab => hab.1.mp hab.2
  · exact fun hs => (forall₂_and h hs).imp fun a b hab => hab.1.mpr hab.2

theorem forall₂_maps {R : β → γ → Prop} {f : α → β} {g : α → γ} {as : List α} :
    List.Forall₂ R (as.map f) (as.map g) ↔ ∀ a ∈ as, R (f a) (g a) := by
  rw [List.forall₂_map_left_iff, List.forall₂_map_right_iff, List.forall₂_same]

theorem map_of_forall₂ {f : α → γ} {g : β → γ} {as : List α} {bs : List β}
    (h : List.Forall₂ (fun a b => g b = f a) as bs) : bs.map g = as.map f := by
  induction h with
  | nil => rfl
  | cons hab _ ih => rw [List.map_cons, List.map_cons, hab, ih]

theorem forall₂_getElem {R : α → β → Prop} {as : List α} {bs : List β}
    (h : List.Forall₂ R as bs) {i : ℕ} {a : α} {b : β} (ha : as[i]? = some a)
    (hb : bs[i]? = some b) : R a b := by
  obtain ⟨hi, rfl⟩ := List.getElem?_eq_some_iff.mp ha
  obtain ⟨hj, rfl⟩ := List.getElem?_eq_some_iff.mp hb
  exact h.get hi hj

theorem forall₂_filter_iff {R : α → α → Prop} {keep : α → Bool} {as bs : List α}
    (h : List.Forall₂ (fun a b => keep b = keep a) as bs) :
    List.Forall₂ R as bs ↔
      List.Forall₂ R (as.filter fun a => !keep a) (bs.filter fun b => !keep b) ∧
        List.Forall₂ R (as.filter keep) (bs.filter keep) := by
  induction h with
  | nil => simp
  | @cons a b as bs hab _ ih =>
    rw [List.forall₂_cons, ih]
    cases hkeep : keep a with
    | true =>
      rw [hkeep] at hab
      simp only [List.filter_cons, hkeep, hab, Bool.not_true, Bool.false_eq_true, if_false, if_true,
        List.forall₂_cons]
      exact and_left_comm
    | false =>
      rw [hkeep] at hab
      simp only [List.filter_cons, hkeep, hab, Bool.not_false, Bool.false_eq_true, if_false,
        if_true, List.forall₂_cons]
      exact and_assoc.symm

section Zip
variable {as : List α} {bs : List β}

theorem getElem_mem_zip (as : List α) (bs : List β) (i : ℕ) (h : i < as.length)
    (h' : i < bs.length) : (as[i], bs[i]) ∈ as.zip bs := by
  have hlt : i < (as.zip bs).length := by
    rw [List.length_zip]
    omega
  rw [← List.getElem_zip (h := hlt)]
  exact List.getElem_mem hlt

theorem exists_mem_zip_left (hlen : bs.length = as.length) {a : α} (ha : a ∈ as) :
    ∃ b, (a, b) ∈ as.zip bs := by
  obtain ⟨i, hi, rfl⟩ := List.getElem_of_mem ha
  exact ⟨bs[i], getElem_mem_zip as bs i hi (by omega)⟩

theorem exists_mem_zip_right (hlen : bs.length = as.length) {b : β} (hb : b ∈ bs) :
    ∃ a, (a, b) ∈ as.zip bs := by
  obtain ⟨i, hi, rfl⟩ := List.getElem_of_mem hb
  exact ⟨as[i], getElem_mem_zip as bs i (by omega) hi⟩

theorem map_of_zip {f : α → γ} {g : β → γ} (hlen : bs.length = as.length)
    (h : ∀ p ∈ as.zip bs, g p.2 = f p.1) : bs.map g = as.map f :=
  map_of_forall₂ (forall₂_of_zip hlen h)

end Zip

section Composed

/-- Two lists that follow the same one follow each other. -/
theorem forall₂_compose {R : α → β → Prop} {S : α → γ → Prop} {T : β → γ → Prop}
    {as : List α} {bs : List β} {cs : List γ} (hR : List.Forall₂ R as bs)
    (hS : List.Forall₂ S as cs) (h : ∀ a ∈ as, ∀ b c, R a b → S a c → T b c) :
    List.Forall₂ T bs cs := by
  induction hR generalizing cs with
  | nil =>
    cases hS
    exact .nil
  | cons hab _ ih =>
    cases hS with
    | cons hac hS =>
      exact .cons (h _ (by simp) _ _ hab hac) (ih hS fun a ha => h a (by simp [ha]))

/-- Of two lists that follow one, each element of that one has its pair in them. -/
theorem exists_of_forall₂ {R : α → β → Prop} {S : α → γ → Prop} {T : β → γ → Prop}
    {as : List α} {bs : List β} {cs : List γ} (hR : List.Forall₂ R as bs)
    (hS : List.Forall₂ S as cs) (hT : List.Forall₂ T bs cs) :
    ∀ a ∈ as, ∃ b c, R a b ∧ S a c ∧ T b c := by
  induction hR generalizing cs with
  | nil => simp
  | cons hab _ ih =>
    cases hS with
    | cons hac hS =>
      cases hT with
      | cons hbc hT =>
        rw [List.forall_mem_cons]
        exact ⟨⟨_, _, hab, hac, hbc⟩, ih hS hT⟩

theorem mem_zip_of_forall₂ {R : α → γ → Prop} {S : β → γ → Prop} {as : List α}
    {bs : List β} {cs : List γ} (hr : List.Forall₂ R as cs) (hs : List.Forall₂ S bs cs) :
    as.length = bs.length ∧ ∀ p ∈ as.zip bs, ∃ c, R p.1 c ∧ S p.2 c := by
  have hpairs : List.Forall₂ (fun a b => ∃ c, R a c ∧ S b c) as bs :=
    forall₂_compose hr.flip hs.flip fun c _ a b ha hb => ⟨c, ha, hb⟩
  exact ⟨hpairs.length_eq, fun p hp => List.forall₂_zip hpairs hp⟩

theorem zip_of_forall₂ {P : α → β → Prop} {Q : β → γ → Prop} {R : γ → δ → Prop}
    {as : List α} {bs : List β} {cs : List γ} {ds : List δ} (hab : List.Forall₂ P as bs)
    (hbc : List.Forall₂ Q bs cs) (hcd : List.Forall₂ R cs ds) :
    ∀ e ∈ as.zip cs, ∃ e' ∈ bs.zip ds, P e.1 e'.1 ∧ R e.2 e'.2 := by
  induction hab generalizing cs ds with
  | nil => exact fun e he => absurd he (by simp)
  | @cons a b as bs hp _ ih =>
    cases hbc with
    | @cons _ c _ cs hq hbc =>
      cases hcd with
      | @cons _ d _ ds hr hcd =>
        intro e he
        rcases List.mem_cons.mp he with rfl | he
        · exact ⟨(b, d), by simp, hp, hr⟩
        · obtain ⟨e', he', hpr⟩ := ih hbc hcd e he
          exact ⟨e', List.mem_cons_of_mem _ he', hpr⟩

end Composed

end Sparsam.ListPairing
