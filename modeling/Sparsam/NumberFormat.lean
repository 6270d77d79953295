import Mathlib.Algebra.Group.Nat.Defs
import Mathlib.Data.List.DropRight
import Mathlib.Data.Nat.Log
import Sparsam.RubyReader

set_option autoImplicit false

/-!
# How an output stream prints numbers

Integers in full, doubles with the six significant digits of `%g`.
-/
namespace Sparsam.NumberFormat
open RubyReader

def formatNat (n : ℕ) : List Char := Nat.toDigits 10 n

def formatInteger (n : ℤ) : List Char :=
  if n < 0 then '-' :: formatNat n.natAbs else formatNat n.natAbs

/-- The quotient to the nearest natural, ties to the even one. -/
def roundHalfEven (num den : ℕ) : ℕ :=
  let q := num / den
  let r := num % den
  if 2 * r < den then q
  else if den < 2 * r then q + 1
  else q + q % 2

def decimalExponent (num den : ℕ) : ℤ :=
  if den ≤ num then Nat.log 10 (num / den)
  else -Nat.clog 10 ((den + num - 1) / num)

/-- The six digits of `num / den` and the place of the first. -/
def significant (num den : ℕ) : ℕ × ℤ :=
  let x := decimalExponent num den
  let d := roundHalfEven (num * 10 ^ (5 - x).toNat) (den * 10 ^ (x - 5).toNat)
  if d = 10 ^ 6 then (10 ^ 5, x + 1) else (d, x)

def withFraction (whole frac : List Char) : List Char :=
  let kept := frac.rdropWhile (· == '0')
  if kept = [] then whole else whole ++ '.' :: kept

def formatExponent (x : ℤ) : List Char :=
  (if x < 0 then '-' else '+') ::
    (if x.natAbs < 10 then '0' :: formatNat x.natAbs else formatNat x.natAbs)

/-- `%g` of six digits, the first at the place `x`. -/
def formatSignificant (digits : List Char) (x : ℤ) : List Char :=
  if -4 ≤ x ∧ x < 6 then
    if 0 ≤ x then withFraction (digits.take (x.toNat + 1)) (digits.drop (x.toNat + 1))
    else withFraction ['0'] (List.replicate ((-x).toNat - 1) '0' ++ digits)
  else withFraction (digits.take 1) (digits.drop 1) ++ 'e' :: formatExponent x

/-- The absolute value, given by the exponent and the fraction of the bits. -/
def formatMagnitude (exponent fraction : ℕ) : List Char :=
  if exponent = 2047 then if fraction = 0 then "inf".toList else "nan".toList
  else
    let mantissa := if exponent = 0 then fraction else 2 ^ 52 + fraction
    let power := max exponent 1
    if mantissa = 0 then ['0']
    else
      let r := significant (mantissa * 2 ^ (power - 1075)) (2 ^ (1075 - power))
      formatSignificant (formatNat r.1) r.2

def formatDouble (d : UInt64) : List Char :=
  let magnitude := formatMagnitude (d.toNat / 2 ^ 52 % 2 ^ 11) (d.toNat % 2 ^ 52)
  if d.toNat / 2 ^ 63 = 0 then magnitude else '-' :: magnitude

theorem formatNat_injective {m n : ℕ} (h : formatNat m = formatNat n) : m = n := by
  have hvalue := congrArg (fun ds => Nat.ofDigitChars 10 ds 0) h
  simpa [formatNat] using hvalue

section Words

/-- A character of a number: of `Set.new`, the only word that is no literal, it is not
    the first. -/
def IsNumeral (c : Char) : Prop := isWordChar c = true ∧ c ≠ 'S'

instance (c : Char) : Decidable (IsNumeral c) := by
  unfold IsNumeral
  infer_instance

def Number (w : List Char) : Prop := w ≠ [] ∧ ∀ c ∈ w, IsNumeral c

instance (w : List Char) : Decidable (Number w) := by
  unfold Number
  infer_instance

theorem Number.isWord {w : List Char} (h : Number w) : IsWord w :=
  ⟨h.1, fun c hc => (h.2 c hc).1⟩

theorem Number.spells {w : List Char} (h : Number w) : Spells w (.word w) := by
  refine spells_word h.isWord ?_
  rintro rfl
  exact (h.2 'S' (by decide)).2 rfl

theorem number_cons {c : Char} {w : List Char} (hc : IsNumeral c) (h : ∀ d ∈ w, IsNumeral d) :
    Number (c :: w) := ⟨by simp, List.forall_mem_cons.mpr ⟨hc, h⟩⟩

theorem isNumeral_digit {c : Char} (h : c.isDigit = true) : IsNumeral c := by
  constructor
  · unfold isWordChar Char.isAlphanum
    rw [h]
    simp
  · rintro rfl
    cases h

theorem number_formatNat (n : ℕ) : Number (formatNat n) :=
  ⟨Nat.toDigits_ne_nil, fun _ hc =>
    isNumeral_digit (Nat.isDigit_of_mem_toDigits (by decide) (by decide) hc)⟩

theorem number_formatInteger (n : ℤ) : Number (formatInteger n) := by
  unfold formatInteger
  split
  · exact number_cons (by decide) (number_formatNat _).2
  · exact number_formatNat _

theorem number_withFraction {whole frac : List Char} (hwhole : Number whole)
    (hfrac : ∀ c ∈ frac, IsNumeral c) : Number (withFraction whole frac) := by
  unfold withFraction
  dsimp only
  split
  · exact hwhole
  · refine ⟨by simp, fun c hc => ?_⟩
    rcases List.mem_append.mp hc with hc | hc
    · exact hwhole.2 c hc
    · rcases List.mem_cons.mp hc with rfl | hc
      · decide
      · exact hfrac c ((List.rdropWhile_prefix _ _).subset hc)

theorem number_take {w : List Char} (h : Number w) {n : ℕ} (hn : n ≠ 0) : Number (w.take n) := by
  refine ⟨?_, fun c hc => h.2 c (List.mem_of_mem_take hc)⟩
  rw [Ne, List.take_eq_nil_iff, not_or]
  exact ⟨hn, h.1⟩

theorem formatExponent_numerals (x : ℤ) : ∀ c ∈ formatExponent x, IsNumeral c := by
  have hdigits := (number_formatNat x.natAbs).2
  have hsign : IsNumeral (if x < 0 then '-' else '+') := by
    split <;> decide
  unfold formatExponent
  refine List.forall_mem_cons.mpr ⟨hsign, ?_⟩
  split
  · exact List.forall_mem_cons.mpr ⟨by decide, hdigits⟩
  · exact hdigits

theorem number_formatSignificant {digits : List Char} (h : Number digits) (x : ℤ) :
    Number (formatSignificant digits x) := by
  have hdrop : ∀ n, ∀ c ∈ digits.drop n, IsNumeral c := fun n c hc =>
    h.2 c (List.mem_of_mem_drop hc)
  unfold formatSignificant
  split
  · split
    · exact number_withFraction (number_take h (Nat.succ_ne_zero _)) (hdrop _)
    · refine number_withFraction (by decide) fun c hc => ?_
      rcases List.mem_append.mp hc with hc | hc
      · rw [List.eq_of_mem_replicate hc]
        decide
      · exact h.2 c hc
  · have hfirst := number_withFraction (number_take h (Nat.succ_ne_zero 0)) (hdrop 1)
    refine ⟨by simp, fun c hc => ?_⟩
    rcases List.mem_append.mp hc with hc | hc
    · exact hfirst.2 c hc
    · rcases List.mem_cons.mp hc with rfl | hc
      · decide
      · exact formatExponent_numerals x c hc

theorem number_formatMagnitude (exponent fraction : ℕ) :
    Number (formatMagnitude exponent fraction) := by
  unfold formatMagnitude
  split
  · split <;> decide
  · extract_lets mantissa power
    split
    · decide
    · exact number_formatSignificant (number_formatNat _) _

theorem number_formatDouble (d : UInt64) : Number (formatDouble d) := by
  have h := number_formatMagnitude (d.toNat / 2 ^ 52 % 2 ^ 11) (d.toNat % 2 ^ 52)
  unfold formatDouble
  dsimp only
  split
  · exact h
  · exact number_cons (by decide) h.2

def StartsDigit (w : List Char) : Prop := w.head?.any Char.isDigit = true

instance (w : List Char) : Decidable (StartsDigit w) := by
  unfold StartsDigit
  infer_instance

theorem StartsDigit.append {w : List Char} (h : StartsDigit w) (w' : List Char) :
    StartsDigit (w ++ w') := by
  cases w with
  | nil => cases h
  | cons c cs => exact h

theorem StartsDigit.take {w : List Char} (h : StartsDigit w) (n : ℕ) :
    StartsDigit (w.take (n + 1)) := by
  cases w with
  | nil => cases h
  | cons c cs => exact h

theorem StartsDigit.withFraction {whole : List Char} (h : StartsDigit whole) (frac : List Char) :
    StartsDigit (withFraction whole frac) := by
  unfold NumberFormat.withFraction
  dsimp only
  split
  · exact h
  · exact h.append _

theorem startsDigit_formatNat (n : ℕ) : StartsDigit (formatNat n) := by
  cases hw : formatNat n with
  | nil => exact absurd hw (number_formatNat n).1
  | cons c cs =>
    have hdigit : c.isDigit = true :=
      Nat.isDigit_of_mem_toDigits (by decide) (by decide)
        (hw ▸ List.mem_cons_self : c ∈ formatNat n)
    simp [StartsDigit, hdigit]

/-- Only infinity and NaN are printed as names. -/
theorem startsDigit_formatMagnitude {exponent : ℕ} (h : exponent ≠ 2047) (fraction : ℕ) :
    StartsDigit (formatMagnitude exponent fraction) := by
  unfold formatMagnitude
  rw [if_neg h]
  extract_lets mantissa power
  split
  · decide
  · unfold formatSignificant
    split
    · split
      · exact ((startsDigit_formatNat _).take _).withFraction _
      · exact StartsDigit.withFraction (by decide) _
    · exact (((startsDigit_formatNat _).take 0).withFraction _).append _

/-- No letter stands first in a number but `i` of `inf` and `n` of `nan`. -/
def StartsNumber (w : List Char) : Prop :=
  w.head?.any (fun c => c.isDigit || c == '-' || c == 'i' || c == 'n') = true

instance (w : List Char) : Decidable (StartsNumber w) := by
  unfold StartsNumber
  infer_instance

theorem StartsDigit.number {w : List Char} (h : StartsDigit w) : StartsNumber w := by
  cases w with
  | nil => cases h
  | cons c cs =>
    have hdigit : c.isDigit = true := h
    simp [StartsNumber, hdigit]

theorem startsNumber_formatInteger (n : ℤ) : StartsNumber (formatInteger n) := by
  unfold formatInteger
  split
  · simp [StartsNumber]
  · exact (startsDigit_formatNat _).number

theorem startsNumber_formatDouble (d : UInt64) : StartsNumber (formatDouble d) := by
  have hmagnitude : ∀ exponent fraction, StartsNumber (formatMagnitude exponent fraction) := by
    intro exponent fraction
    by_cases h : exponent = 2047
    · unfold formatMagnitude
      rw [if_pos h]
      split <;> decide
    · exact (startsDigit_formatMagnitude h fraction).number
  unfold formatDouble
  dsimp only
  split
  · exact hmagnitude _ _
  · simp [StartsNumber]

theorem formatInteger_injective {m n : ℤ} (h : formatInteger m = formatInteger n) : m = n := by
  have hminus : ∀ (k : ℕ) (w : List Char), formatNat k ≠ '-' :: w := by
    intro k w heq
    have hdigit : '-' ∈ formatNat k := heq ▸ List.mem_cons_self
    have := Nat.isDigit_of_mem_toDigits (by decide) (by decide) hdigit
    cases this
  unfold formatInteger at h
  split at h <;> split at h
  · have := formatNat_injective (List.cons.inj h).2
    omega
  · exact absurd h.symm (hminus _ _)
  · exact absurd h (hminus _ _)
  · have := formatNat_injective h
    omega

end Words

end Sparsam.NumberFormat
