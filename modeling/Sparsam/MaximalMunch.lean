import Mathlib.Computability.Language

set_option autoImplicit false

/-!
# Patterns and the longest match

Patterns over classes of characters, decided by derivatives, and the choice of
a generated scanner: the longest prefix that a rule matches and, for that
prefix, the first such rule.
-/
namespace Sparsam.MaximalMunch
open Computability

inductive Pattern where
  | void
  | empty
  | cls (p : Char → Bool)
  | seq (a b : Pattern)
  | alt (a b : Pattern)
  | star (a : Pattern)

namespace Pattern

def char (c : Char) : Pattern := .cls fun d => d == c

def lit : List Char → Pattern
  | [] => .empty
  | c :: cs => .seq (.char c) (lit cs)

def opt (a : Pattern) : Pattern := .alt a .empty

def plus (a : Pattern) : Pattern := .seq a (.star a)

/-- The texts that a pattern matches. -/
def language : Pattern → Language Char
  | .void => 0
  | .empty => 1
  | .cls p => {w | ∃ c, p c = true ∧ w = [c]}
  | .seq a b => a.language * b.language
  | .alt a b => a.language + b.language
  | .star a => a.language∗

def nullable : Pattern → Bool
  | .void | .cls _ => false
  | .empty | .star _ => true
  | .seq a b => a.nullable && b.nullable
  | .alt a b => a.nullable || b.nullable

/-- What a match goes on with after its first character. -/
def deriv : Pattern → Char → Pattern
  | .void, _ | .empty, _ => .void
  | .cls p, c => if p c then .empty else .void
  | .seq a b, c =>
    if a.nullable then .alt (.seq (a.deriv c) b) (b.deriv c) else .seq (a.deriv c) b
  | .alt a b, c => .alt (a.deriv c) (b.deriv c)
  | .star a, c => .seq (a.deriv c) (.star a)

def accepts (a : Pattern) : List Char → Bool
  | [] => a.nullable
  | c :: cs => (a.deriv c).accepts cs

theorem nullable_iff (a : Pattern) : a.nullable = true ↔ [] ∈ a.language := by
  induction a with
  | void => exact iff_of_false (by simp [nullable]) (Language.notMem_zero [])
  | empty => exact iff_of_true rfl Language.nil_mem_one
  | cls p =>
    refine iff_of_false (by simp [nullable]) ?_
    rintro ⟨c, -, h⟩
    cases h
  | seq a b iha ihb =>
    rw [nullable, Bool.and_eq_true, iha, ihb, language, Language.mem_mul]
    constructor
    · rintro ⟨ha, hb⟩
      exact ⟨[], ha, [], hb, rfl⟩
    · rintro ⟨u, hu, v, hv, h⟩
      obtain ⟨rfl, rfl⟩ := List.append_eq_nil_iff.mp h
      exact ⟨hu, hv⟩
  | alt a b iha ihb =>
    rw [nullable, Bool.or_eq_true, iha, ihb, language, Language.mem_add]
  | star a => exact iff_of_true rfl (Language.nil_mem_kstar _)

theorem cons_mem_kstar {l : Language Char} {c : Char} {w : List Char} :
    c :: w ∈ l∗ ↔ ∃ u v, w = u ++ v ∧ c :: u ∈ l ∧ v ∈ l∗ := by
  rw [Language.mem_kstar_iff_exists_nonempty]
  constructor
  · rintro ⟨pieces, h, hpieces⟩
    cases pieces with
    | nil => cases h
    | cons piece pieces =>
      obtain ⟨hmem, hne⟩ := hpieces piece (by simp)
      cases piece with
      | nil => exact absurd rfl hne
      | cons d u =>
        obtain ⟨rfl, rfl⟩ := List.cons.inj h
        exact ⟨u, pieces.flatten, rfl, hmem,
          Language.join_mem_kstar fun y hy => (hpieces y (by simp [hy])).1⟩
  · rintro ⟨u, v, rfl, hu, hv⟩
    obtain ⟨pieces, rfl, hpieces⟩ := Language.mem_kstar_iff_exists_nonempty.mp hv
    refine ⟨(c :: u) :: pieces, rfl, fun y hy => ?_⟩
    rcases List.mem_cons.mp hy with rfl | hy
    · exact ⟨hu, by simp⟩
    · exact hpieces y hy

theorem cons_mem_seq {a b : Pattern} {c : Char} {w : List Char} :
    c :: w ∈ a.language * b.language ↔
      (∃ u v, w = u ++ v ∧ c :: u ∈ a.language ∧ v ∈ b.language) ∨
        [] ∈ a.language ∧ c :: w ∈ b.language := by
  rw [Language.mem_mul]
  constructor
  · rintro ⟨u, hu, v, hv, h⟩
    cases u with
    | nil =>
      rw [List.nil_append] at h
      exact .inr ⟨hu, h ▸ hv⟩
    | cons d u =>
      obtain ⟨rfl, rfl⟩ := List.cons.inj h
      exact .inl ⟨u, v, rfl, hu, hv⟩
  · rintro (⟨u, v, rfl, hu, hv⟩ | ⟨ha, hb⟩)
    · exact ⟨c :: u, hu, v, hv, rfl⟩
    · exact ⟨[], ha, c :: w, hb, rfl⟩

theorem mem_deriv (a : Pattern) (c : Char) (w : List Char) :
    w ∈ (a.deriv c).language ↔ c :: w ∈ a.language := by
  induction a generalizing w with
  | void => exact iff_of_false (Language.notMem_zero w) (Language.notMem_zero _)
  | empty =>
    refine iff_of_false (Language.notMem_zero w) ?_
    rw [language, Language.mem_one]
    simp
  | cls p =>
    rw [deriv]
    split
    · rename_i hp
      rw [language, Language.mem_one]
      constructor
      · rintro rfl
        exact ⟨c, hp, rfl⟩
      · rintro ⟨d, -, h⟩
        exact (List.cons.inj h).2
    · rename_i hp
      refine iff_of_false (Language.notMem_zero w) ?_
      rintro ⟨d, hd, h⟩
      obtain ⟨rfl, -⟩ := List.cons.inj h
      exact hp hd
  | seq a b iha ihb =>
    have hleft : w ∈ (Pattern.seq (a.deriv c) b).language ↔
        ∃ u v, w = u ++ v ∧ c :: u ∈ a.language ∧ v ∈ b.language := by
      rw [language, Language.mem_mul]
      constructor
      · rintro ⟨u, hu, v, hv, h⟩
        exact ⟨u, v, h.symm, (iha u).mp hu, hv⟩
      · rintro ⟨u, v, h, hu, hv⟩
        exact ⟨u, (iha u).mpr hu, v, hv, h.symm⟩
    rw [deriv]
    change _ ↔ c :: w ∈ a.language * b.language
    rw [cons_mem_seq, ← hleft, ← nullable_iff]
    split
    · rename_i hnull
      change w ∈ (Pattern.seq (a.deriv c) b).language + (b.deriv c).language ↔ _
      rw [Language.mem_add, ihb, and_iff_right hnull]
    · rename_i hnull
      exact (or_iff_left fun h => hnull h.1).symm
  | alt a b iha ihb =>
    rw [deriv, language, Language.mem_add, iha, ihb]
    rfl
  | star a iha =>
    rw [deriv, language, Language.mem_mul]
    change _ ↔ c :: w ∈ a.language∗
    rw [cons_mem_kstar]
    constructor
    · rintro ⟨u, hu, v, hv, h⟩
      exact ⟨u, v, h.symm, (iha u).mp hu, hv⟩
    · rintro ⟨u, v, h, hu, hv⟩
      exact ⟨u, (iha u).mpr hu, v, hv, h.symm⟩

theorem accepts_iff (a : Pattern) (w : List Char) : a.accepts w = true ↔ w ∈ a.language := by
  induction w generalizing a with
  | nil => exact nullable_iff a
  | cons c w ih => rw [accepts, ih, mem_deriv]

theorem cons_mem_cls_seq {p : Char → Bool} {b : Pattern} {c : Char} {w : List Char} :
    c :: w ∈ (Pattern.seq (.cls p) b).language ↔ p c = true ∧ w ∈ b.language := by
  rw [language, Language.mem_mul]
  constructor
  · rintro ⟨u, ⟨d, hd, rfl⟩, v, hv, h⟩
    obtain ⟨rfl, rfl⟩ := List.cons.inj h
    exact ⟨hd, hv⟩
  · rintro ⟨hc, hw⟩
    exact ⟨[c], ⟨c, hc, rfl⟩, w, hw, rfl⟩

theorem cons_mem_opt {a : Pattern} {c : Char} {w : List Char} :
    c :: w ∈ (opt a).language ↔ c :: w ∈ a.language := by
  rw [opt, language, Language.mem_add]
  refine or_iff_left fun h => ?_
  rw [language, Language.mem_one] at h
  cases h

/-- The characters that texts of a pattern are made of. -/
def occurs : Pattern → Char → Bool
  | .void, _ | .empty, _ => false
  | .cls p, c => p c
  | .seq a b, c | .alt a b, c => a.occurs c || b.occurs c
  | .star a, c => a.occurs c

/-- The characters that texts of a pattern start with. -/
def starts : Pattern → Char → Bool
  | .void, _ | .empty, _ => false
  | .cls p, c => p c
  | .seq a b, c => a.starts c || (a.nullable && b.starts c)
  | .alt a b, c => a.starts c || b.starts c
  | .star a, c => a.starts c

theorem occurs_of_mem {a : Pattern} {w : List Char} (h : w ∈ a.language) {c : Char} (hc : c ∈ w) :
    a.occurs c = true := by
  induction a generalizing w with
  | void => exact absurd h (Language.notMem_zero w)
  | empty =>
    rw [language, Language.mem_one] at h
    rw [h] at hc
    cases hc
  | cls p =>
    obtain ⟨d, hd, rfl⟩ := h
    rw [List.mem_singleton.mp hc]
    exact hd
  | seq a b iha ihb =>
    rw [language, Language.mem_mul] at h
    obtain ⟨u, hu, v, hv, rfl⟩ := h
    rw [occurs, Bool.or_eq_true]
    exact (List.mem_append.mp hc).imp (iha hu) (ihb hv)
  | alt a b iha ihb =>
    rw [language, Language.mem_add] at h
    rw [occurs, Bool.or_eq_true]
    exact h.imp (fun h => iha h hc) fun h => ihb h hc
  | star a iha =>
    rw [language, Language.mem_kstar] at h
    obtain ⟨pieces, rfl, hpieces⟩ := h
    obtain ⟨piece, hpiece, hc⟩ := List.mem_flatten.mp hc
    exact iha (hpieces piece hpiece) hc

theorem starts_of_mem {a : Pattern} {c : Char} {w : List Char} (h : c :: w ∈ a.language) :
    a.starts c = true := by
  induction a generalizing w with
  | void => exact absurd h (Language.notMem_zero _)
  | empty =>
    rw [language, Language.mem_one] at h
    cases h
  | cls p =>
    obtain ⟨d, hd, h⟩ := h
    obtain ⟨rfl, -⟩ := List.cons.inj h
    exact hd
  | seq a b iha ihb =>
    rw [starts, Bool.or_eq_true, Bool.and_eq_true]
    rcases cons_mem_seq.mp h with ⟨u, v, -, hu, -⟩ | ⟨ha, hb⟩
    · exact .inl (iha hu)
    · exact .inr ⟨(nullable_iff a).mpr ha, ihb hb⟩
  | alt a b iha ihb =>
    rw [language, Language.mem_add] at h
    rw [starts, Bool.or_eq_true]
    exact h.imp iha ihb
  | star a iha =>
    obtain ⟨u, v, -, hu, -⟩ := cons_mem_kstar.mp h
    exact iha hu

theorem cons_mem_seq_of_not_starts {a b : Pattern} {c : Char} {w : List Char}
    (hc : a.starts c = false) (ha : a.nullable = true) :
    c :: w ∈ (Pattern.seq a b).language ↔ c :: w ∈ b.language := by
  rw [language, cons_mem_seq, ← nullable_iff, and_iff_right ha]
  refine or_iff_right ?_
  rintro ⟨u, v, -, hu, -⟩
  rw [starts_of_mem hu] at hc
  cases hc

theorem occurs_of_deriv {a : Pattern} {c d : Char} (h : (a.deriv c).occurs d = true) :
    a.occurs d = true := by
  induction a with
  | void | empty => exact h
  | cls p =>
    rw [deriv] at h
    split at h <;> cases h
  | seq a b iha ihb =>
    have hleft :
        (Pattern.seq (a.deriv c) b).occurs d = true → (Pattern.seq a b).occurs d = true := by
      rw [occurs, occurs, Bool.or_eq_true, Bool.or_eq_true]
      exact Or.imp_left iha
    rw [deriv] at h
    split at h
    · rw [occurs, Bool.or_eq_true] at h
      refine h.elim hleft fun hb => ?_
      rw [occurs, Bool.or_eq_true]
      exact .inr (ihb hb)
    · exact hleft h
  | alt a b iha ihb =>
    rw [deriv, occurs, Bool.or_eq_true] at h
    rw [occurs, Bool.or_eq_true]
    exact h.imp iha ihb
  | star a iha =>
    rw [deriv, occurs, Bool.or_eq_true] at h
    exact h.elim iha id

theorem mem_lit {text w : List Char} : w ∈ (lit text).language ↔ w = text := by
  induction text generalizing w with
  | nil => exact Language.mem_one w
  | cons c text ih =>
    rw [lit, language, Language.mem_mul]
    constructor
    · rintro ⟨u, ⟨d, hd, rfl⟩, v, hv, rfl⟩
      rw [beq_iff_eq.mp hd, ih.mp hv]
      rfl
    · rintro rfl
      exact ⟨[c], ⟨c, beq_self_eq_true c, rfl⟩, text, ih.mpr rfl, rfl⟩

theorem occurs_lit {text : List Char} {c : Char} : (lit text).occurs c = true ↔ c ∈ text := by
  induction text with
  | nil => simp [lit, occurs]
  | cons d text ih => simp [lit, occurs, char, ih]

theorem mem_star_cls {p : Char → Bool} {w : List Char} :
    w ∈ (Pattern.star (.cls p)).language ↔ ∀ c ∈ w, p c = true := by
  constructor
  · exact fun h c hc => occurs_of_mem h hc
  · intro h
    rw [language, Language.mem_kstar]
    refine ⟨w.map fun c => [c], ?_, fun y hy => ?_⟩
    · rw [← List.flatMap_def, List.flatMap_singleton']
    · obtain ⟨c, hc, rfl⟩ := List.mem_map.mp hy
      exact ⟨c, h c hc, rfl⟩

theorem mem_plus_cls {p : Char → Bool} {w : List Char} :
    w ∈ (plus (.cls p)).language ↔ w ≠ [] ∧ ∀ c ∈ w, p c = true := by
  cases w with
  | nil =>
    rw [plus, ← nullable_iff]
    simp [nullable]
  | cons c w =>
    rw [plus, cons_mem_cls_seq, mem_star_cls, List.forall_mem_cons]
    exact (and_iff_right (List.cons_ne_nil c w)).symm

end Pattern

section Rules
variable {ι : Type}

def firstAccepting (rules : List (Pattern × ι)) (w : List Char) : Option ι :=
  (rules.find? fun r => r.1.accepts w).map Prod.snd

/-- The longest prefix of at most `n` characters that a rule matches. -/
def munchFrom (rules : List (Pattern × ι)) (input : List Char) : ℕ → Option (ι × ℕ)
  | 0 => (firstAccepting rules []).map fun a => (a, 0)
  | n + 1 =>
    match firstAccepting rules (input.take (n + 1)) with
    | some a => some (a, n + 1)
    | none => munchFrom rules input n

def munch (rules : List (Pattern × ι)) (input : List Char) : Option (ι × ℕ) :=
  munchFrom rules input input.length

theorem firstAccepting_eq_none {rules : List (Pattern × ι)} {w : List Char} :
    firstAccepting rules w = none ↔ ∀ r ∈ rules, w ∉ r.1.language := by
  unfold firstAccepting
  rw [Option.map_eq_none_iff, List.find?_eq_none]
  exact forall₂_congr fun r _ => not_congr (r.1.accepts_iff w)

theorem firstAccepting_append {before after : List (Pattern × ι)} {a : Pattern} {action : ι}
    {w : List Char} (hbefore : ∀ r ∈ before, w ∉ r.1.language) (ha : w ∈ a.language) :
    firstAccepting (before ++ (a, action) :: after) w = some action := by
  have hnone : (before.find? fun r => r.1.accepts w) = none := by
    rw [List.find?_eq_none]
    exact fun r hr h => hbefore r hr ((r.1.accepts_iff w).mp h)
  have haccepts : a.accepts w = true := (a.accepts_iff w).mpr ha
  unfold firstAccepting
  rw [List.find?_append, hnone, Option.none_or, List.find?_cons]
  dsimp only
  rw [haccepts]
  rfl

theorem munchFrom_eq {rules : List (Pattern × ι)} {input : List Char} {action : ι} {n m : ℕ}
    (hn : firstAccepting rules (input.take n) = some action)
    (hlonger : ∀ k, n < k → k ≤ m → firstAccepting rules (input.take k) = none) (hm : n ≤ m) :
    munchFrom rules input m = some (action, n) := by
  induction m with
  | zero =>
    obtain rfl : n = 0 := by omega
    rw [List.take_zero] at hn
    rw [munchFrom, hn]
    rfl
  | succ m ih =>
    rw [munchFrom]
    by_cases heq : n = m + 1
    · rw [← heq, hn]
    · rw [hlonger (m + 1) (by omega) le_rfl]
      exact ih (fun k hk hkm => hlonger k hk (by omega)) (by omega)

theorem munchFrom_pos {rules : List (Pattern × ι)} {c : Char} {cs : List Char} {action : ι}
    {n m : ℕ} (hc : firstAccepting rules [c] ≠ none) (hm : 0 < m)
    (h : munchFrom rules (c :: cs) m = some (action, n)) : 0 < n := by
  induction m with
  | zero => omega
  | succ m ih =>
    rw [munchFrom] at h
    split at h
    · injection h with h
      injection h with _ h
      omega
    · rename_i hnone
      refine ih ?_ h
      by_contra hzero
      obtain rfl : m = 0 := by omega
      exact hc hnone

/-- A text is scanned whole when a rule matches it and no rule that can start like it can go on
    with what follows. -/
theorem munch_append {rules : List (Pattern × ι)} {c : Char} {cs rest : List Char} {action : ι}
    (hw : firstAccepting rules (c :: cs) = some action)
    (hstop : ∀ d ∈ rest.head?, ∀ r ∈ rules, r.1.starts c = true → (r.1.deriv c).occurs d = false) :
    munch rules (c :: cs ++ rest) = some (action, (c :: cs).length) := by
  refine munchFrom_eq (by rw [List.take_left' rfl]; exact hw) (fun k hk hkm => ?_) (by simp)
  cases rest with
  | nil =>
    rw [List.append_nil] at hkm
    omega
  | cons d rest =>
    rw [firstAccepting_eq_none]
    intro r hr hmem
    obtain ⟨j, rfl⟩ : ∃ j, k = (c :: cs).length + (j + 1) := ⟨k - (c :: cs).length - 1, by omega⟩
    rw [List.take_length_add_append, List.take_succ_cons, List.cons_append] at hmem
    have hoccurs := @Pattern.occurs_of_mem _ _ ((r.1.mem_deriv c _).mpr hmem) d (by simp)
    rw [hstop d rfl r hr (Pattern.starts_of_mem hmem)] at hoccurs
    cases hoccurs

theorem munchFrom_sound {rules : List (Pattern × ι)} {input : List Char} {a : ι} {n m : ℕ}
    (h : munchFrom rules input m = some (a, n)) :
    firstAccepting rules (input.take n) = some a := by
  induction m with
  | zero =>
    obtain ⟨b, hb, heq⟩ := Option.map_eq_some_iff.mp h
    obtain ⟨rfl, rfl⟩ := Prod.mk.inj heq
    rwa [List.take_zero]
  | succ m ih =>
    rw [munchFrom] at h
    split at h
    · rename_i b hb
      obtain ⟨rfl, rfl⟩ := Prod.mk.inj (Option.some.inj h)
      exact hb
    · exact ih h

theorem firstAccepting_sound {rules : List (Pattern × ι)} {w : List Char} {a : ι}
    (h : firstAccepting rules w = some a) : ∃ r ∈ rules, r.2 = a ∧ w ∈ r.1.language := by
  obtain ⟨r, hr, ha⟩ := Option.map_eq_some_iff.mp h
  have haccepts := @List.find?_some _ _ _ _ hr
  exact ⟨r, List.mem_of_find?_eq_some hr, ha,
    (r.1.accepts_iff w).mp haccepts⟩

end Rules

end Sparsam.MaximalMunch
