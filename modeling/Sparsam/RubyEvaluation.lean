import Sparsam.FieldsText
import Sparsam.SchemaEvaluation

set_option autoImplicit false

/-!
# Evaluating what Ruby reads

An expression of the reader has a value once its constants are defined. Where it
is that of a printed literal, the value is the one that the literal denotes.
-/
namespace Sparsam.RubyEvaluation
open RubyStrings RubyReader NumberFormat SchemaLiteral GeneratedText WireProtocol RubyRuntime
open FieldInfoCache SchemaEvaluation

section Numbers

/-- The place of the first bit of `num / den`. -/
def binaryExponent (num den : ℕ) : ℤ :=
  if den ≤ num then Nat.log 2 (num / den)
  else -Nat.clog 2 ((den + num - 1) / num)

/-- The bits of the double nearest to `num / den`, ties to the even one. -/
def nearestDouble (num den : ℕ) : UInt64 :=
  if num = 0 then 0
  else
    -- the place of the last bit, that of the subnormal numbers at the least
    let x := max (-1074) (binaryExponent num den - 52)
    let m := roundHalfEven (num * 2 ^ (-x).toNat) (den * 2 ^ x.toNat)
    let (m, x) := if m = 2 ^ 53 then (2 ^ 52, x + 1) else (m, x)
    if m < 2 ^ 52 then UInt64.ofNat m
    else if 971 < x then UInt64.ofNat (2047 * 2 ^ 52)
    else UInt64.ofNat ((x + 1075).toNat * 2 ^ 52 + (m - 2 ^ 52))

/-- The double of the digits times a power of ten. -/
def decimalDouble (digits : List Char) (x : ℤ) : UInt64 :=
  nearestDouble (Nat.ofDigitChars 10 digits 0 * 10 ^ x.toNat) (10 ^ (-x).toNat)

def naturalOf (ds : List Char) : Option ℕ :=
  if ds ≠ [] ∧ ds.all Char.isDigit then some (Nat.ofDigitChars 10 ds 0) else none

/-- What stands behind the digits of a number. -/
def exponentOf : List Char → Option ℤ
  | [] => some 0
  | 'e' :: '-' :: ds => (naturalOf ds).map fun n => -(n : ℤ)
  | 'e' :: '+' :: ds => (naturalOf ds).map fun n => (n : ℤ)
  | 'e' :: ds => (naturalOf ds).map fun n => (n : ℤ)
  | _ => none

/-- A number without its sign. One that starts with a zero would be octal and is
    not printed. -/
def unsignedLiteral (w : List Char) : Option Value :=
  let whole := w.takeWhile Char.isDigit
  if whole = [] ∨ (whole.head? = some '0' ∧ whole ≠ ['0']) then none
  else
    match w.dropWhile Char.isDigit with
    | [] => some (.int (Nat.ofDigitChars 10 whole 0))
    | '.' :: rest =>
      let frac := rest.takeWhile Char.isDigit
      if frac = [] then none
      else (exponentOf (rest.dropWhile Char.isDigit)).map fun x =>
        .float (decimalDouble (whole ++ frac) (x - frac.length))
    | rest => (exponentOf rest).map fun x => .float (decimalDouble whole x)

def negated : Value → Value
  | .int n => .int (-n)
  | .float bits => .float (bits ^^^ UInt64.ofNat (2 ^ 63))
  | v => v

def numericLiteral : List Char → Option Value
  | '-' :: w => (unsignedLiteral w).map negated
  | w => unsignedLiteral w

theorem formatNat_head {n : ℕ} (h : n ≠ 0) : (formatNat n).head? ≠ some '0' := by
  induction n using Nat.strong_induction_on with
  | _ n ih =>
    by_cases hlt : n < 10
    · unfold formatNat
      rw [Nat.toDigits_of_lt_base hlt]
      have hone : ∀ k < 10, k ≠ 0 → [Nat.digitChar k].head? ≠ some '0' := by decide
      exact hone n hlt h
    · have hdiv : n / 10 ≠ 0 := by omega
      have hhead := ih (n / 10) (by omega) hdiv
      unfold formatNat at hhead ⊢
      rw [Nat.toDigits_of_base_le (by decide) (by omega), List.head?_append]
      cases hd : (Nat.toDigits 10 (n / 10)).head? with
      | none => exact absurd (List.head?_eq_none_iff.mp hd) Nat.toDigits_ne_nil
      | some c =>
        rw [hd] at hhead
        exact hhead

theorem unsignedLiteral_formatNat (n : ℕ) : unsignedLiteral (formatNat n) = some (.int n) := by
  have hdigits : ∀ c ∈ formatNat n, c.isDigit = true := fun c hc =>
    Nat.isDigit_of_mem_toDigits (by decide) (by decide) hc
  have htake : (formatNat n).takeWhile Char.isDigit = formatNat n :=
    List.takeWhile_eq_self_iff.mpr hdigits
  have hdrop : (formatNat n).dropWhile Char.isDigit = [] := List.dropWhile_eq_nil_iff.mpr hdigits
  have hvalue : Nat.ofDigitChars 10 (formatNat n) 0 = n := by
    simp [formatNat]
  have hzero : ¬ ((formatNat n).head? = some '0' ∧ formatNat n ≠ ['0']) := by
    rintro ⟨hhead, hne⟩
    by_cases h : n = 0
    · exact hne (by rw [h]; rfl)
    · exact formatNat_head h hhead
  unfold unsignedLiteral
  rw [htake, hdrop, if_neg (by simp [hzero, (number_formatNat n).1]), hvalue]

theorem numericLiteral_formatInteger (n : ℤ) :
    numericLiteral (formatInteger n) = some (.int n) := by
  unfold formatInteger
  split
  · rename_i hneg
    change (unsignedLiteral (formatNat n.natAbs)).map negated = _
    rw [unsignedLiteral_formatNat, Option.map_some, negated]
    have habs : -(n.natAbs : ℤ) = n := by omega
    rw [habs]
  · rename_i hpos
    have hplain : numericLiteral (formatNat n.natAbs) = unsignedLiteral (formatNat n.natAbs) := by
      unfold numericLiteral
      split
      · rename_i heq
        have hdigit := startsDigit_formatNat n.natAbs
        rw [heq] at hdigit
        cases hdigit
      · rfl
    have habs : (n.natAbs : ℤ) = n := by omega
    rw [hplain, unsignedLiteral_formatNat, habs]

end Numbers

section Expressions

/-- What a generated file is evaluated in: the constants that are defined so far,
    with those of `Sparsam::Types`, and `K.new(hash)`. -/
structure Ruby where
  const : List String → Option Value
  isUnion : VALUE → Bool
  new : VALUE → List (Value × Value) → Option Value
  types : ∀ name, const ["Sparsam", "Types", name] =
    (typesConstant name).map fun t => .int t.toInt

def classOf? : Value → Option VALUE
  | .klass k => some k
  | _ => none

def wordValue (w : List Char) : Option Value :=
  if w = "true".toList then some (.bool true)
  else if w = "false".toList then some (.bool false)
  else numericLiteral w

namespace Ruby
variable (ruby : Ruby)

def environment : Environment where
  classes path := (ruby.const path).bind classOf?
  enumModules := ruby.const
  isUnion := ruby.isUnion
  double d := numericLiteral (formatDouble d)
  new := ruby.new

mutual
/-- `none` is an expression that raises, or that Ruby does not parse. -/
def evalExpr : Expr → Option Value
  | .string delim raw => stringLiteral delim (String.ofList raw)
  | .word w => wordValue w
  | .sym name => some (.sym (String.ofList name))
  | .const path => ruby.const (path.map String.ofList)
  | .array xs => (evalExprs xs).map .ary
  | .set xs => (evalExprs xs).map fun ys => .set (setNew ruby.isUnion ys)
  | .hash es => (evalPairs es).map fun kvs => .hash (ruby.environment.hashNew kvs)
  | .new path es =>
    ((ruby.const (path.map String.ofList)).bind classOf?).bind fun k =>
      (evalPairs es).bind fun kvs => ruby.new k (ruby.environment.hashNew kvs)

def evalExprs : List Expr → Option (List Value)
  | [] => some []
  | x :: xs => (evalExpr x).bind fun y => (evalExprs xs).map (y :: ·)

def evalPairs : List (Expr × Expr) → Option (List (Value × Value))
  | [] => some []
  | (k, v) :: es =>
    (evalExpr k).bind fun key => (evalExpr v).bind fun value =>
      (evalPairs es).map ((key, value) :: ·)
end

end Ruby

def ClassesIn (ruby : Ruby) (classes : List (List String)) : Prop :=
  ∀ path ∈ classes, ∀ v, ruby.const path = some v → ∃ k, v = .klass k

variable {ruby : Ruby}

theorem wordValue_number {w : List Char} (h : StartsNumber w) : wordValue w = numericLiteral w := by
  unfold wordValue
  have hother : w ≠ "true".toList ∧ w ≠ "false".toList := by
    constructor
    · rintro rfl
      exact absurd h (by decide)
    · rintro rfl
      exact absurd h (by decide)
  rw [if_neg hother.1, if_neg hother.2]

theorem const_map (path : List String) : (path.map String.toList).map String.ofList = path := by
  simp

theorem const_klass {path : List String} (h : ClassesIn ruby [path]) :
    ruby.const path = ((ruby.const path).bind classOf?).map .klass := by
  cases hv : ruby.const path with
  | none => rfl
  | some v =>
    obtain ⟨k, rfl⟩ := h path (by simp) v hv
    rfl

mutual
theorem evalExpr_exprOf : ∀ l : Literal, ClassesIn ruby l.classes →
    ruby.evalExpr (exprOf l) = ruby.environment.eval l
  | .percentQ text, _ | .quoted text, _ => by
    simp only [exprOf, Ruby.evalExpr, Environment.eval, String.ofList_toList]
  | .bool b, _ => by cases b <;> rfl
  | .int n, _ => by
    simp only [exprOf, Ruby.evalExpr, Environment.eval]
    rw [wordValue_number (startsNumber_formatInteger n), numericLiteral_formatInteger]
  | .double d, _ => by
    simp only [exprOf, Ruby.evalExpr, Environment.eval]
    exact wordValue_number (startsNumber_formatDouble d)
  | .sym name, _ => by simp only [exprOf, Ruby.evalExpr, Environment.eval, String.ofList_toList]
  | .types name, _ => by
    simp only [exprOf, Ruby.evalExpr, Environment.eval, List.map_cons, List.map_nil,
      String.ofList_toList]
    exact ruby.types name.text
  | .klass path, h => by
    simp only [exprOf, Ruby.evalExpr, Environment.eval, const_map]
    exact const_klass h
  | .enumModule path, _ => by
    simp only [exprOf, Ruby.evalExpr, Environment.eval, const_map]
    rfl
  | .array xs, h => by
    simp only [exprOf, Ruby.evalExpr, Environment.eval, evalExprs_exprsOf xs h]
  | .set xs, h => by
    simp only [exprOf, Ruby.evalExpr, Environment.eval, evalExprs_exprsOf xs h]
    rfl
  | .hash es, h => by
    simp only [exprOf, Ruby.evalExpr, Environment.eval, evalPairs_entriesOf es h]
  | .new path es, h => by
    have hes : ClassesIn ruby (Literal.classesOfEntries es) := fun p hp =>
      h p (List.mem_cons_of_mem _ hp)
    simp only [exprOf, Ruby.evalExpr, Environment.eval, const_map, evalPairs_entriesOf es hes]
    rfl

theorem evalExprs_exprsOf : ∀ xs : List Literal, ClassesIn ruby (Literal.classesOfList xs) →
    ruby.evalExprs (exprsOf xs) = ruby.environment.evalElems xs
  | [], _ => rfl
  | x :: xs, h => by
    have hx : ClassesIn ruby x.classes := fun p hp => h p (List.mem_append_left _ hp)
    have hxs : ClassesIn ruby (Literal.classesOfList xs) := fun p hp =>
      h p (List.mem_append_right _ hp)
    simp only [exprsOf, Ruby.evalExprs, Environment.evalElems, evalExpr_exprOf x hx,
      evalExprs_exprsOf xs hxs]

theorem evalPairs_entriesOf : ∀ es : List (Literal × Literal),
    ClassesIn ruby (Literal.classesOfEntries es) →
    ruby.evalPairs (entriesOf es) = ruby.environment.evalEntries es
  | [], _ => rfl
  | (k, v) :: es, h => by
    have hk : ClassesIn ruby k.classes := fun p hp =>
      h p (List.mem_append_left _ (List.mem_append_left _ hp))
    have hv : ClassesIn ruby v.classes := fun p hp =>
      h p (List.mem_append_left _ (List.mem_append_right _ hp))
    have hes : ClassesIn ruby (Literal.classesOfEntries es) := fun p hp =>
      h p (List.mem_append_right _ hp)
    simp only [entriesOf, Ruby.evalPairs, Environment.evalEntries, evalExpr_exprOf k hk,
      evalExpr_exprOf v hv, evalPairs_entriesOf es hes]
end

end Expressions

end Sparsam.RubyEvaluation
