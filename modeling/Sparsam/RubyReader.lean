import Sparsam.RubyStrings

set_option autoImplicit false

/-!
# Reading Ruby's literals

The text of a literal is cut into tokens and the tokens are read as an
expression: strings, numbers and other words, symbols, constants, and arrays,
sets, hashes and `K.new({..})` of these.
-/
namespace Sparsam.RubyReader
open RubyStrings

inductive Token where
  /-- A quoted literal: its delimiter and the text inside. -/
  | string (delim : Char) (raw : List Char)
  /-- A number or a name, with its dots. -/
  | word (w : List Char)
  | sym (name : List Char)
  | colons
  | arrow
  | punct (c : Char)
deriving DecidableEq, Repr

def isWordChar (c : Char) : Bool := c.isAlphanum || c == '_' || c == '.' || c == '+' || c == '-'

def isPunct (c : Char) : Bool :=
  c == '[' || c == ']' || c == '{' || c == '}' || c == '(' || c == ')' || c == ','

def isSpace (c : Char) : Bool := c == ' ' || c == '\n'

def percentToken : List Char → Option (Token × List Char)
  | 'q' :: '"' :: cs => (scanQuoted '"' cs).map fun r => (.string '"' r.1, r.2)
  | _ => none

def colonToken : List Char → Token × List Char
  | ':' :: cs => (.colons, cs)
  | cs => (.sym (cs.takeWhile isWordChar), cs.dropWhile isWordChar)

def arrowToken : List Char → Option (Token × List Char)
  | '>' :: cs => some (.arrow, cs)
  | _ => none

/-- The token at the front of a text that starts with no space. -/
def nextToken : List Char → Option (Token × List Char)
  | [] => none
  | c :: cs =>
    if c = Char.ofNat 39 then (scanQuoted c cs).map fun r => (.string c r.1, r.2)
    else if c = '%' then percentToken cs
    else if c = ':' then some (colonToken cs)
    else if c = '=' then arrowToken cs
    else if isPunct c then some (.punct c, cs)
    else if isWordChar c then
      some (.word (c :: cs.takeWhile isWordChar), cs.dropWhile isWordChar)
    else none

theorem scanToken_length {delim : Char} {cs rest : List Char} {tok : Token}
    (h : (scanQuoted delim cs).map (fun r => (Token.string delim r.1, r.2)) = some (tok, rest)) :
    rest.length < cs.length := by
  obtain ⟨⟨raw, rest'⟩, hscan, heq⟩ := Option.map_eq_some_iff.mp h
  obtain ⟨-, rfl⟩ := Prod.mk.inj heq
  exact scanQuoted_length hscan

theorem percentToken_length {cs rest : List Char} {tok : Token}
    (h : percentToken cs = some (tok, rest)) : rest.length < cs.length := by
  unfold percentToken at h
  split at h
  · have hlen := scanToken_length h
    simp only [List.length_cons]
    omega
  · cases h

theorem colonToken_length (cs : List Char) : (colonToken cs).2.length ≤ cs.length := by
  unfold colonToken
  split
  · simp
  · exact (List.dropWhile_suffix _).length_le

theorem arrowToken_length {cs rest : List Char} {tok : Token}
    (h : arrowToken cs = some (tok, rest)) : rest.length < cs.length := by
  unfold arrowToken at h
  split at h
  · obtain ⟨-, rfl⟩ := Prod.mk.inj (Option.some.inj h)
    simp
  · cases h

theorem nextToken_length {text rest : List Char} {tok : Token}
    (h : nextToken text = some (tok, rest)) : rest.length < text.length := by
  cases text with
  | nil => cases h
  | cons c cs =>
    rw [List.length_cons]
    unfold nextToken at h
    dsimp only at h
    split at h
    · exact Nat.lt_succ_of_lt (scanToken_length h)
    split at h
    · exact Nat.lt_succ_of_lt (percentToken_length h)
    split at h
    · have hlen := colonToken_length cs
      rw [Option.some.inj h] at hlen
      exact Nat.lt_succ_of_le hlen
    split at h
    · exact Nat.lt_succ_of_lt (arrowToken_length h)
    split at h
    · obtain ⟨-, rfl⟩ := Prod.mk.inj (Option.some.inj h)
      exact Nat.lt_succ_self _
    split at h
    · obtain ⟨-, rfl⟩ := Prod.mk.inj (Option.some.inj h)
      exact Nat.lt_succ_of_le (List.dropWhile_suffix _).length_le
    · cases h

/-- The tokens of a text; a comment goes up to the end of its line. -/
def lex (text : List Char) : Option (List Token) :=
  match text with
  | [] => some []
  | c :: cs =>
    if isSpace c then lex cs
    else if c = '#' then lex (cs.dropWhile (· ≠ '\n'))
    else
      match _h : nextToken (c :: cs) with
      | none => none
      | some (tok, rest) => (lex rest).map (tok :: ·)
termination_by text.length
decreasing_by
  · exact Nat.lt_succ_self _
  · exact Nat.lt_succ_of_le (List.dropWhile_suffix _).length_le
  · exact nextToken_length _h

inductive Expr where
  | string (delim : Char) (raw : List Char)
  | word (w : List Char)
  | sym (name : List Char)
  | const (path : List (List Char))
  | array (xs : List Expr)
  /-- `Set.new([xs])` -/
  | set (xs : List Expr)
  | hash (es : List (Expr × Expr))
  /-- `::path.new({es})` -/
  | new (path : List (List Char)) (es : List (Expr × Expr))

/-- The names of a constant after its first `::`. -/
def parsePath : List Token → Option (List (List Char) × List Token)
  | .word w :: .colons :: ts => (parsePath ts).map fun r => (w :: r.1, r.2)
  | .word w :: ts => some ([w], ts)
  | _ => none

/-- The path of the class in a call of its `new`. -/
def receiver : List (List Char) → Option (List (List Char))
  | [] => none
  | [w] => if ".new".toList.isSuffixOf w then some [w.take (w.length - 4)] else none
  | v :: path => (receiver path).map (v :: ·)

def closeCall {α : Type} : Option (α × List Token) → Option (α × List Token)
  | some (x, .punct ')' :: ts) => some (x, ts)
  | _ => none

mutual
/-- The expression at the front, read with at most so many calls inside each other. -/
def parseExpr : ℕ → List Token → Option (Expr × List Token)
  | 0, _ => none
  | n + 1, ts =>
    match ts with
    | .string delim raw :: ts => some (.string delim raw, ts)
    | .sym name :: ts => some (.sym name, ts)
    | .word w :: ts =>
      if w = "Set.new".toList then
        match ts with
        | .punct '(' :: .punct '[' :: ts =>
          (closeCall (parseElems n ts)).map fun r => (.set r.1, r.2)
        | _ => none
      else some (.word w, ts)
    | .colons :: ts =>
      match parsePath ts with
      | some (path, .punct '(' :: .punct '{' :: ts) =>
        (receiver path).bind fun klass =>
          (closeCall (parseEntries n ts)).map fun r => (.new klass r.1, r.2)
      | some (path, ts) => some (.const path, ts)
      | none => none
    | .punct '[' :: ts => (parseElems n ts).map fun r => (.array r.1, r.2)
    | .punct '{' :: ts => (parseEntries n ts).map fun r => (.hash r.1, r.2)
    | _ => none

/-- Up to the closing bracket; a comma may stand before it. -/
def parseElems : ℕ → List Token → Option (List Expr × List Token)
  | 0, _ => none
  | n + 1, ts =>
    match ts with
    | .punct ']' :: ts => some ([], ts)
    | ts =>
      match parseExpr n ts with
      | some (x, .punct ',' :: ts) => (parseElems n ts).map fun r => (x :: r.1, r.2)
      | some (x, .punct ']' :: ts) => some ([x], ts)
      | _ => none

def parseEntries : ℕ → List Token → Option (List (Expr × Expr) × List Token)
  | 0, _ => none
  | n + 1, ts =>
    match ts with
    | .punct '}' :: ts => some ([], ts)
    | ts =>
      match parseExpr n ts with
      | some (k, .arrow :: ts) =>
        match parseExpr n ts with
        | some (v, .punct ',' :: ts) => (parseEntries n ts).map fun r => ((k, v) :: r.1, r.2)
        | some (v, .punct '}' :: ts) => some ([(k, v)], ts)
        | _ => none
      | _ => none
end

/-- The expression that is the whole text, whatever words stand for its constants. -/
def parse (text : List Char) : Option Expr :=
  match lex text with
  | none => none
  | some toks =>
    match parseExpr toks.length toks with
    | some (e, []) => some e
    | _ => none

inductive NameKind where
  | constant
  | localVariable
  | other
deriving DecidableEq

def isNameChar (c : Char) : Bool := c.isAlphanum || c == '_'

/-- What Ruby takes a name for; one with a dot calls a method, and the two keywords that
    start with a capital letter name nothing. -/
def nameKind : List Char → NameKind
  | [] => .other
  | c :: cs =>
    if cs.all isNameChar = false then .other
    else if c.isUpper then
      if c :: cs = "BEGIN".toList ∨ c :: cs = "END".toList then .other else .constant
    else if c.isLower || c == '_' then .localVariable
    else .other

def isConstantName (name : List Char) : Bool := nameKind name == .constant

def isConstantPath (path : List (List Char)) : Bool := !path.isEmpty && path.all isConstantName

mutual
/-- What stands behind each `::` is the name of a constant. -/
def Expr.named : Expr → Bool
  | .string _ _ | .word _ | .sym _ => true
  | .const path => isConstantPath path
  | .array xs | .set xs => allNamed xs
  | .hash es => entriesNamed es
  | .new path es => isConstantPath path && entriesNamed es

def allNamed : List Expr → Bool
  | [] => true
  | x :: xs => x.named && allNamed xs

def entriesNamed : List (Expr × Expr) → Bool
  | [] => true
  | (k, v) :: es => k.named && v.named && entriesNamed es
end

/-- The expression that Ruby reads in the whole text. -/
def read (text : List Char) : Option Expr := (parse text).filter Expr.named

section Lexing

theorem lex_space {c : Char} (h : isSpace c = true) (cs : List Char) : lex (c :: cs) = lex cs := by
  rw [lex, if_pos h]

theorem lex_token {c : Char} {cs rest : List Char} {tok : Token} (hc : isSpace c = false)
    (h : nextToken (c :: cs) = some (tok, rest)) : lex (c :: cs) = (lex rest).map (tok :: ·) := by
  have hcomment : c ≠ '#' := by
    rintro rfl
    cases h
  rw [lex, if_neg (by simp [hc]), if_neg hcomment]
  split
  · rename_i hnone
    rw [hnone] at h
    cases h
  · rename_i hsome
    rw [hsome] at h
    obtain ⟨rfl, rfl⟩ := Prod.mk.inj (Option.some.inj h)
    rfl

/-- The text has these tokens, whatever follows it. -/
def Lexes (text : List Char) (toks : List Token) : Prop :=
  ∀ rest, lex (text ++ rest) = (lex rest).map (toks ++ ·)

/-- No word goes on at the front of the text. -/
def Stops (rest : List Char) : Prop := ∀ c ∈ rest.head?, isWordChar c = false

/-- The text has these tokens unless a word goes on after it. -/
def LexesWord (text : List Char) (toks : List Token) : Prop :=
  ∀ rest, Stops rest → lex (text ++ rest) = (lex rest).map (toks ++ ·)

theorem Lexes.word {text : List Char} {toks : List Token} (h : Lexes text toks) :
    LexesWord text toks := fun rest _ => h rest

theorem lexes_nil : Lexes [] [] := by
  intro rest
  cases h : lex rest <;> simp [h]

theorem Lexes.append {a b : List Char} {as bs : List Token} (ha : Lexes a as) (hb : Lexes b bs) :
    Lexes (a ++ b) (as ++ bs) := by
  intro rest
  rw [List.append_assoc, ha, hb, Option.map_map]
  congr 1
  funext ts
  exact (List.append_assoc as bs ts).symm

theorem Lexes.append_word {a b : List Char} {as bs : List Token} (ha : Lexes a as)
    (hb : LexesWord b bs) : LexesWord (a ++ b) (as ++ bs) := by
  intro rest hrest
  rw [List.append_assoc, ha, hb rest hrest, Option.map_map]
  congr 1
  funext ts
  exact (List.append_assoc as bs ts).symm

/-- A text that closes a word before it. -/
def Closes (text : List Char) : Prop := text.head?.any (fun c => !isWordChar c) = true

instance (text : List Char) : Decidable (Closes text) := by
  unfold Closes
  infer_instance

theorem Closes.stops {text : List Char} (h : Closes text) (rest : List Char) :
    Stops (text ++ rest) := by
  cases text with
  | nil => cases h
  | cons c text =>
    intro d hd
    obtain rfl := Option.some.inj hd
    simpa [Closes] using h

theorem LexesWord.append {a b : List Char} {as bs : List Token} (ha : LexesWord a as)
    (hb : Lexes b bs) (hclose : Closes b) : Lexes (a ++ b) (as ++ bs) := by
  intro rest
  rw [List.append_assoc, ha _ (hclose.stops rest), hb, Option.map_map]
  congr 1
  funext ts
  exact (List.append_assoc as bs ts).symm

theorem lexes_spaces {text : List Char} (h : ∀ c ∈ text, isSpace c = true) : Lexes text [] := by
  intro rest
  induction text with
  | nil => exact lexes_nil rest
  | cons c text ih =>
    rw [List.cons_append, lex_space (h c (by simp))]
    exact ih fun d hd => h d (by simp [hd])

theorem lexes_comment {line : List Char} (h : '\n' ∉ line) :
    Lexes ('#' :: (line ++ ['\n'])) [] := by
  intro rest
  have hline : ∀ c ∈ line, decide (c ≠ '\n') = true := by
    intro c hc
    rw [decide_eq_true_eq]
    rintro rfl
    exact h hc
  have hdrop : (line ++ ['\n'] ++ rest).dropWhile (fun c => decide (c ≠ '\n')) = '\n' :: rest := by
    rw [List.append_assoc, List.dropWhile_append_of_pos hline]
    exact List.dropWhile_cons_of_neg (by simp)
  rw [List.cons_append, lex, if_neg (by decide), if_pos rfl, hdrop, lex_space (by decide)]
  cases lex rest <;> rfl

theorem lexes_newline : Lexes ['\n'] [] := lexes_spaces (by decide)

theorem lexes_blank : Lexes [' '] [] := lexes_spaces (by decide)

theorem lexes_token {c : Char} {cs : List Char} {tok : Token} (hc : isSpace c = false)
    (h : ∀ rest, nextToken (c :: (cs ++ rest)) = some (tok, rest)) : Lexes (c :: cs) [tok] := by
  intro rest
  rw [List.cons_append, lex_token hc (h rest)]
  rfl

theorem lexes_arrow : Lexes "=>".toList [.arrow] := lexes_token (by decide) fun _ => rfl

theorem lexes_colons : Lexes "::".toList [.colons] := lexes_token (by decide) fun _ => rfl

theorem lexes_punct {c : Char} (h : c ∈ ['[', ']', '{', '}', '(', ')', ',']) :
    Lexes [c] [.punct c] := by
  have hnext : isSpace c = false ∧ ∀ rest, nextToken (c :: rest) = some (.punct c, rest) := by
    simp only [List.mem_cons, List.not_mem_nil, or_false] at h
    rcases h with rfl | rfl | rfl | rfl | rfl | rfl | rfl <;> exact ⟨by decide, fun _ => rfl⟩
  exact lexes_token hnext.1 hnext.2

theorem lexes_percentQ {raw : List Char} (h : Inside '"' raw) :
    Lexes ("%q\"".toList ++ raw ++ ['"']) [.string '"' raw] := by
  have hnext : ∀ rest, nextToken ('%' :: ("q\"".toList ++ raw ++ ['"'] ++ rest)) =
      some (.string '"' raw, rest) := by
    intro rest
    have hscan := h rest
    rw [← List.singleton_append, ← List.append_assoc] at hscan
    change (scanQuoted '"' (raw ++ ['"'] ++ rest)).map _ = _
    rw [hscan]
    rfl
  exact lexes_token (by decide) hnext

theorem lexes_quoted {raw : List Char} (h : Inside (Char.ofNat 39) raw) :
    Lexes (Char.ofNat 39 :: (raw ++ [Char.ofNat 39])) [.string (Char.ofNat 39) raw] := by
  have hnext : ∀ rest, nextToken (Char.ofNat 39 :: (raw ++ [Char.ofNat 39] ++ rest)) =
      some (.string (Char.ofNat 39) raw, rest) := by
    intro rest
    have hscan := h rest
    rw [← List.singleton_append, ← List.append_assoc] at hscan
    change (scanQuoted (Char.ofNat 39) (raw ++ [Char.ofNat 39] ++ rest)).map _ = _
    rw [hscan]
    rfl
  exact lexes_token (by decide) hnext

def IsWord (w : List Char) : Prop := w ≠ [] ∧ ∀ c ∈ w, isWordChar c = true

instance (w : List Char) : Decidable (IsWord w) := by
  unfold IsWord
  infer_instance

theorem chars_of_nameKind {w : List Char} (h : nameKind w ≠ .other) :
    w ≠ [] ∧ ∀ c ∈ w, isNameChar c = true := by
  cases w with
  | nil => exact absurd rfl h
  | cons c cs =>
    refine ⟨by simp, ?_⟩
    simp only [nameKind] at h
    split at h
    · exact absurd rfl h
    rename_i hcs
    rw [Bool.not_eq_false, List.all_eq_true] at hcs
    refine List.forall_mem_cons.mpr ⟨?_, hcs⟩
    have hletter : c.isUpper = true ∨ c.isLower = true ∨ c = '_' := by
      split at h
      · exact .inl ‹_›
      split at h
      · rename_i hc
        rw [Bool.or_eq_true, beq_iff_eq] at hc
        exact .inr hc
      · exact absurd rfl h
    unfold isNameChar
    delta Char.isAlphanum Char.isAlpha
    rcases hletter with hc | hc | rfl
    · rw [hc, Bool.true_or, Bool.true_or, Bool.true_or]
    · rw [hc, Bool.or_true, Bool.true_or, Bool.true_or]
    · rfl

theorem isWord_of_nameKind {w : List Char} (h : nameKind w ≠ .other) : IsWord w := by
  obtain ⟨hne, hchars⟩ := chars_of_nameKind h
  refine ⟨hne, fun c hc => ?_⟩
  have hchar := hchars c hc
  unfold isNameChar at hchar
  unfold isWordChar
  rw [hchar]
  rfl

theorem isWord_constant {w : List Char} (h : isConstantName w = true) : IsWord w := by
  rw [isConstantName, beq_iff_eq] at h
  exact isWord_of_nameKind (by rw [h]; simp)

theorem takeWhile_word {w rest : List Char} (hw : ∀ c ∈ w, isWordChar c = true)
    (hrest : Stops rest) : (w ++ rest).takeWhile isWordChar = w ∧
      (w ++ rest).dropWhile isWordChar = rest := by
  rw [List.takeWhile_append_of_pos hw, List.dropWhile_append_of_pos hw]
  cases rest with
  | nil => simp
  | cons c rest =>
    have hc := hrest c rfl
    rw [List.takeWhile_cons_of_neg (by simp [hc]), List.dropWhile_cons_of_neg (by simp [hc])]
    simp

theorem ne_of_word {c d : Char} (hc : isWordChar c = true) (hd : isWordChar d = false) :
    c ≠ d := by
  rintro rfl
  rw [hc] at hd
  cases hd

theorem isPunct_word {c : Char} (hc : isWordChar c = true) : isPunct c = false := by
  unfold isPunct
  simp only [Bool.or_eq_false_iff, beq_eq_false_iff_ne]
  exact ⟨⟨⟨⟨⟨⟨ne_of_word hc (by decide), ne_of_word hc (by decide)⟩, ne_of_word hc (by decide)⟩,
    ne_of_word hc (by decide)⟩, ne_of_word hc (by decide)⟩, ne_of_word hc (by decide)⟩,
    ne_of_word hc (by decide)⟩

theorem nextToken_word {c : Char} (hc : isWordChar c = true) (cs : List Char) :
    nextToken (c :: cs) = some (.word (c :: cs.takeWhile isWordChar), cs.dropWhile isWordChar) := by
  unfold nextToken
  dsimp only
  rw [if_neg (ne_of_word hc (by decide)), if_neg (ne_of_word hc (by decide)),
    if_neg (ne_of_word hc (by decide)), if_neg (ne_of_word hc (by decide)),
    if_neg (by simp [isPunct_word hc]), if_pos hc]

theorem isSpace_word {c : Char} (hc : isWordChar c = true) : isSpace c = false := by
  unfold isSpace
  simp only [Bool.or_eq_false_iff, beq_eq_false_iff_ne]
  exact ⟨ne_of_word hc (by decide), ne_of_word hc (by decide)⟩

theorem lexesWord_word {w : List Char} (h : IsWord w) : LexesWord w [.word w] := by
  obtain ⟨hne, hw⟩ := h
  cases w with
  | nil => exact absurd rfl hne
  | cons c w =>
    obtain ⟨hc, hw⟩ := List.forall_mem_cons.mp hw
    intro rest hrest
    obtain ⟨htake, hdrop⟩ := takeWhile_word hw hrest
    rw [List.cons_append, lex_token (isSpace_word hc) (nextToken_word hc _), htake, hdrop]
    rfl

theorem lexesWord_sym {w : List Char} (h : IsWord w) : LexesWord (':' :: w) [.sym w] := by
  obtain ⟨hne, hw⟩ := h
  intro rest hrest
  obtain ⟨htake, hdrop⟩ := takeWhile_word hw hrest
  have hnext : nextToken (':' :: (w ++ rest)) = some (.sym w, rest) := by
    cases w with
    | nil => exact absurd rfl hne
    | cons c w =>
      have hcolon : c ≠ ':' := ne_of_word (hw c (by simp)) (by decide)
      have hsym : colonToken (c :: w ++ rest) = (.sym ((c :: w ++ rest).takeWhile isWordChar),
          (c :: w ++ rest).dropWhile isWordChar) := by
        unfold colonToken
        split
        · rename_i heq
          exact absurd (List.cons.inj heq).1 hcolon
        · rfl
      rw [htake, hdrop] at hsym
      change some (colonToken (c :: w ++ rest)) = _
      rw [hsym]
  rw [List.cons_append, lex_token (by decide) hnext]
  rfl

end Lexing

section Parsing

/-- What follows neither goes on with a constant nor calls it. -/
def Ends (rest : List Token) : Prop := ∀ tok ∈ rest.head?, tok ≠ .colons ∧ tok ≠ .punct '('

/-- Read as the expression, whatever follows its end. -/
def Parses (toks : List Token) (e : Expr) : Prop :=
  ∀ n rest, toks.length ≤ n → Ends rest → parseExpr n (toks ++ rest) = some (e, rest)

def ParsesElems (toks : List Token) (xs : List Expr) : Prop :=
  ∀ n rest, toks.length < n → parseElems n (toks ++ .punct ']' :: rest) = some (xs, rest)

def ParsesEntries (toks : List Token) (es : List (Expr × Expr)) : Prop :=
  ∀ n rest, toks.length < n → parseEntries n (toks ++ .punct '}' :: rest) = some (es, rest)

theorem ends_nil : Ends [] := by simp [Ends]

theorem ends_arrow (rest : List Token) : Ends (.arrow :: rest) := by simp [Ends]

theorem ends_punct {c : Char} (hc : c ≠ '(') (rest : List Token) : Ends (.punct c :: rest) := by
  simp [Ends, hc]

theorem Parses.ne_nil {toks : List Token} {e : Expr} (h : Parses toks e) : toks ≠ [] := by
  rintro rfl
  have hnone := h 1 [] (Nat.zero_le 1) ends_nil
  cases hnone

theorem Parses.not_closed {toks rest ts : List Token} {e : Expr} (h : Parses toks e) {c : Char}
    (hc : c = ']' ∨ c = '}') : toks ++ rest ≠ .punct c :: ts := by
  intro heq
  cases toks with
  | nil => exact h.ne_nil rfl
  | cons tok toks =>
    obtain ⟨rfl, -⟩ := List.cons.inj heq
    have hsome := h (toks.length + 1) [] (Nat.le_refl _) ends_nil
    rcases hc with rfl | rfl <;> cases hsome

theorem parses_string (delim : Char) (raw : List Char) :
    Parses [.string delim raw] (.string delim raw) := by
  rintro (_ | n) rest hn -
  · cases hn
  · rfl

theorem parses_sym (w : List Char) : Parses [.sym w] (.sym w) := by
  rintro (_ | n) rest hn -
  · cases hn
  · rfl

theorem parses_word {w : List Char} (h : w ≠ "Set.new".toList) : Parses [.word w] (.word w) := by
  rintro (_ | n) rest hn -
  · cases hn
  · unfold parseExpr
    exact if_neg h

theorem parsesElems_nil : ParsesElems [] [] := by
  rintro (_ | n) rest hn
  · cases hn
  · rfl

theorem parsesEntries_nil : ParsesEntries [] [] := by
  rintro (_ | n) rest hn
  · cases hn
  · rfl

theorem ParsesElems.cons {x toks : List Token} {e : Expr} {xs : List Expr} (hx : Parses x e)
    (h : ParsesElems toks xs) : ParsesElems (x ++ .punct ',' :: toks) (e :: xs) := by
  rintro (_ | n) rest hn
  · cases hn
  rw [List.length_append, List.length_cons] at hn
  rw [List.append_assoc, List.cons_append]
  unfold parseElems
  split
  · rename_i heq
    exact absurd heq (hx.not_closed (.inl rfl))
  · rw [hx n _ (by omega) (ends_punct (by decide) _)]
    change (parseElems n (toks ++ .punct ']' :: rest)).map _ = _
    rw [h n rest (by omega)]
    rfl

theorem ParsesElems.last {x : List Token} {e : Expr} (hx : Parses x e) : ParsesElems x [e] := by
  rintro (_ | n) rest hn
  · cases hn
  unfold parseElems
  split
  · rename_i heq
    exact absurd heq (hx.not_closed (.inl rfl))
  · rw [hx n _ (by omega) (ends_punct (by decide) _)]
    rfl

theorem ParsesEntries.cons {k v toks : List Token} {ke ve : Expr} {es : List (Expr × Expr)}
    (hk : Parses k ke) (hv : Parses v ve) (h : ParsesEntries toks es) :
    ParsesEntries (k ++ .arrow :: (v ++ .punct ',' :: toks)) ((ke, ve) :: es) := by
  rintro (_ | n) rest hn
  · cases hn
  simp only [List.length_append, List.length_cons] at hn
  rw [List.append_assoc, List.cons_append, List.append_assoc, List.cons_append]
  unfold parseEntries
  split
  · rename_i heq
    exact absurd heq (hk.not_closed (.inr rfl))
  · rw [hk n _ (by omega) (ends_arrow _)]
    dsimp only
    rw [hv n _ (by omega) (ends_punct (by decide) _)]
    change (parseEntries n (toks ++ .punct '}' :: rest)).map _ = _
    rw [h n rest (by omega)]
    rfl

theorem ParsesEntries.last {k v : List Token} {ke ve : Expr} (hk : Parses k ke)
    (hv : Parses v ve) : ParsesEntries (k ++ .arrow :: v) [(ke, ve)] := by
  rintro (_ | n) rest hn
  · cases hn
  simp only [List.length_append, List.length_cons] at hn
  rw [List.append_assoc, List.cons_append]
  unfold parseEntries
  split
  · rename_i heq
    exact absurd heq (hk.not_closed (.inr rfl))
  · rw [hk n _ (by omega) (ends_arrow _)]
    dsimp only
    rw [hv n _ (by omega) (ends_punct (by decide) _)]
    rfl

theorem ParsesElems.array {toks : List Token} {xs : List Expr} (h : ParsesElems toks xs) :
    Parses (.punct '[' :: (toks ++ [.punct ']'])) (.array xs) := by
  rintro (_ | n) rest hn -
  · cases hn
  simp only [List.length_append, List.length_cons, List.length_nil] at hn
  rw [List.cons_append, List.append_assoc]
  unfold parseExpr
  change (parseElems n (toks ++ .punct ']' :: rest)).map _ = _
  rw [h n rest (by omega)]
  rfl

theorem ParsesEntries.hash {toks : List Token} {es : List (Expr × Expr)}
    (h : ParsesEntries toks es) : Parses (.punct '{' :: (toks ++ [.punct '}'])) (.hash es) := by
  rintro (_ | n) rest hn -
  · cases hn
  simp only [List.length_append, List.length_cons, List.length_nil] at hn
  rw [List.cons_append, List.append_assoc]
  unfold parseExpr
  change (parseEntries n (toks ++ .punct '}' :: rest)).map _ = _
  rw [h n rest (by omega)]
  rfl

theorem ParsesElems.set {toks : List Token} {xs : List Expr} (h : ParsesElems toks xs) :
    Parses (.word "Set.new".toList :: .punct '(' :: .punct '[' ::
      (toks ++ [.punct ']', .punct ')'])) (.set xs) := by
  rintro (_ | n) rest hn -
  · cases hn
  simp only [List.length_append, List.length_cons, List.length_nil] at hn
  simp only [List.cons_append, List.append_assoc]
  unfold parseExpr
  change (closeCall (parseElems n (toks ++ .punct ']' :: .punct ')' :: rest))).map _ = _
  rw [h n (.punct ')' :: rest) (by omega)]
  rfl

/-- The names of a constant, with a `::` before each. -/
def pathTokens (path : List (List Char)) : List Token := path.flatMap fun w => [.colons, .word w]

theorem parsePath_tokens {rest : List Token} (hrest : rest.head? ≠ some .colons) (v : List Char)
    (path : List (List Char)) :
    parsePath (.word v :: (pathTokens path ++ rest)) = some (v :: path, rest) := by
  induction path generalizing v with
  | nil =>
    change parsePath (.word v :: rest) = _
    unfold parsePath
    split
    · rename_i heq
      obtain ⟨-, rfl⟩ := List.cons.inj heq
      exact absurd rfl hrest
    · rename_i heq
      obtain ⟨hv, rfl⟩ := List.cons.inj heq
      obtain rfl := Token.word.inj hv
      rfl
    · rename_i hno
      exact absurd rfl (hno v rest)
  | cons w path ih =>
    change (parsePath (.word w :: (pathTokens path ++ rest))).map _ = _
    rw [ih w]
    rfl

theorem parses_const {path : List (List Char)} (h : path ≠ []) :
    Parses (pathTokens path) (.const path) := by
  rintro n rest hn hrest
  cases path with
  | nil => exact absurd rfl h
  | cons v path =>
    cases n with
    | zero => cases hn
    | succ n =>
      change parseExpr (n + 1) (.colons :: .word v :: (pathTokens path ++ rest)) = _
      unfold parseExpr
      dsimp only
      rw [parsePath_tokens fun hhead => (hrest _ hhead).1 rfl]
      split
      · rename_i heq
        obtain ⟨-, rfl⟩ := Prod.mk.inj (Option.some.inj heq)
        exact absurd rfl (hrest _ rfl).2
      · rename_i heq
        obtain ⟨rfl, rfl⟩ := Prod.mk.inj (Option.some.inj heq)
        rfl
      · rename_i heq
        cases heq

theorem receiver_new (path : List (List Char)) (w : List Char) :
    receiver (path ++ [w ++ ".new".toList]) = some (path ++ [w]) := by
  induction path with
  | nil =>
    change (if ".new".toList.isSuffixOf (w ++ ".new".toList) then _ else none) = _
    rw [if_pos (List.isSuffixOf_iff_suffix.mpr (List.suffix_append _ _)), List.length_append]
    change some [(w ++ ".new".toList).take (w.length + 4 - 4)] = _
    rw [Nat.add_sub_cancel, List.take_left]
    rfl
  | cons v path ih =>
    rw [List.cons_append, receiver.eq_def]
    split
    · rename_i heq
      cases heq
    · rename_i heq
      simp at heq
    · rename_i heq
      obtain ⟨rfl, rfl⟩ := List.cons.inj heq
      rw [ih]
      rfl

theorem ParsesEntries.new {toks : List Token} {es : List (Expr × Expr)}
    (h : ParsesEntries toks es) (path : List (List Char)) (w : List Char) :
    Parses (pathTokens (path ++ [w ++ ".new".toList]) ++ .punct '(' :: .punct '{' ::
      (toks ++ [.punct '}', .punct ')'])) (.new (path ++ [w]) es) := by
  rintro (_ | n) rest hn -
  · simp at hn
  obtain ⟨v, path', hpath⟩ : ∃ v path', path ++ [w ++ ".new".toList] = v :: path' := by
    cases path with
    | nil => exact ⟨_, _, rfl⟩
    | cons v path => exact ⟨_, _, rfl⟩
  have hreceiver := receiver_new path w
  rw [hpath] at hn hreceiver ⊢
  simp only [List.length_append, List.length_cons, List.length_nil] at hn
  simp only [List.append_assoc, List.cons_append, List.nil_append]
  change parseExpr (n + 1) (.colons :: .word v :: (pathTokens path' ++ _)) = _
  unfold parseExpr
  dsimp only
  rw [parsePath_tokens (by simp)]
  change (receiver (v :: path')).bind _ = _
  rw [hreceiver]
  change (closeCall (parseEntries n (toks ++ .punct '}' :: .punct ')' :: rest))).map _ = _
  rw [h n (.punct ')' :: rest) (by omega)]
  rfl

end Parsing

section Texts

/-- The text is read as the expression unless a word or a call goes on after it. -/
def Spells (text : List Char) (e : Expr) : Prop := ∃ toks, LexesWord text toks ∧ Parses toks e

/-- The text is read as the expression, whatever characters stand after it. -/
def SpellsClosed (text : List Char) (e : Expr) : Prop := ∃ toks, Lexes text toks ∧ Parses toks e

theorem SpellsClosed.spells {text : List Char} {e : Expr} (h : SpellsClosed text e) :
    Spells text e := by
  obtain ⟨toks, hlex, hparse⟩ := h
  exact ⟨toks, hlex.word, hparse⟩

/-- The text is read as elements, each with its comma. -/
def SpellsElems (text : List Char) (xs : List Expr) : Prop :=
  ∃ toks, Lexes text toks ∧ ParsesElems toks xs

def SpellsEntries (text : List Char) (es : List (Expr × Expr)) : Prop :=
  ∃ toks, Lexes text toks ∧ ParsesEntries toks es

theorem Spells.parse {text : List Char} {e : Expr} (h : Spells text e) : parse text = some e := by
  obtain ⟨toks, hlex, hparse⟩ := h
  have htoks : lex text = some toks := by
    have hend := hlex [] (by simp [Stops])
    rw [List.append_nil] at hend
    rw [hend]
    simp [lex]
  have hexpr := hparse toks.length [] (Nat.le_refl _) ends_nil
  rw [List.append_nil] at hexpr
  unfold RubyReader.parse
  rw [htoks]
  dsimp only
  rw [hexpr]

theorem Spells.read_iff {text : List Char} {e e' : Expr} (h : Spells text e) :
    read text = some e' ↔ e = e' ∧ e.named = true := by
  unfold RubyReader.read
  rw [h.parse, Option.filter_eq_some_iff, Option.some.injEq]
  apply and_congr_right
  rintro rfl
  exact Iff.rfl

theorem Spells.read {text : List Char} {e : Expr} (h : Spells text e) (hnamed : e.named = true) :
    read text = some e := h.read_iff.mpr ⟨rfl, hnamed⟩

theorem Spells.after {sp text : List Char} {e : Expr} (hsp : Lexes sp []) (h : Spells text e) :
    Spells (sp ++ text) e := by
  obtain ⟨toks, hlex, hparse⟩ := h
  exact ⟨toks, hsp.append_word hlex, hparse⟩

theorem Spells.indent {sp text : List Char} {e : Expr} (hsp : ∀ c ∈ sp, isSpace c = true)
    (h : Spells text e) : Spells (sp ++ text) e := h.after (lexes_spaces hsp)

theorem Spells.blank {sp text : List Char} {e : Expr} (hsp : ∀ c ∈ sp, isSpace c = true)
    (h : Spells text e) : Spells (text ++ sp) e := by
  obtain ⟨toks, hlex, hparse⟩ := h
  refine ⟨toks, ?_, hparse⟩
  intro rest hrest
  have hstops : Stops (sp ++ rest) := by
    cases sp with
    | nil => exact hrest
    | cons c sp =>
      intro d hd
      obtain rfl := Option.some.inj hd
      by_contra hword
      rw [Bool.not_eq_false] at hword
      have hspace := hsp c (by simp)
      rw [isSpace_word hword] at hspace
      cases hspace
  rw [List.append_assoc, hlex _ hstops, lexes_spaces hsp]
  cases lex rest <;> rfl

theorem spells_word {w : List Char} (h : IsWord w) (hset : w ≠ "Set.new".toList) :
    Spells w (.word w) := ⟨_, lexesWord_word h, parses_word hset⟩

theorem spells_percentQ {raw : List Char} (h : Inside '"' raw) :
    SpellsClosed ("%q\"".toList ++ raw ++ ['"']) (.string '"' raw) :=
  ⟨_, lexes_percentQ h, parses_string _ _⟩

theorem spells_quoted {raw : List Char} (h : Inside (Char.ofNat 39) raw) :
    SpellsClosed (Char.ofNat 39 :: (raw ++ [Char.ofNat 39])) (.string (Char.ofNat 39) raw) :=
  ⟨_, lexes_quoted h, parses_string _ _⟩

theorem spells_symbol {w : List Char} (h : IsWord w) : Spells (':' :: w) (.sym w) :=
  ⟨_, lexesWord_sym h, parses_sym w⟩

theorem spellsElems_nil : SpellsElems [] [] := ⟨[], lexes_nil, parsesElems_nil⟩

theorem spellsEntries_nil : SpellsEntries [] [] := ⟨[], lexes_nil, parsesEntries_nil⟩

theorem lexes_comma : Lexes ",\n".toList [.punct ','] :=
  (lexes_punct (by decide)).append lexes_newline

theorem lexes_gets : Lexes " => ".toList [.arrow] :=
  (lexes_blank.append lexes_arrow).append lexes_blank

theorem SpellsElems.cons {x text : List Char} {e : Expr} {xs : List Expr} (hx : Spells x e)
    (h : SpellsElems text xs) : SpellsElems (x ++ ",\n".toList ++ text) (e :: xs) := by
  obtain ⟨xtoks, hxlex, hxparse⟩ := hx
  obtain ⟨toks, hlex, hparse⟩ := h
  refine ⟨xtoks ++ .punct ',' :: toks, ?_, .cons hxparse hparse⟩
  have happend := (hxlex.append lexes_comma (by decide)).append hlex
  rw [List.append_assoc xtoks] at happend
  exact happend

theorem SpellsEntries.cons {k v text : List Char} {ke ve : Expr} {es : List (Expr × Expr)}
    (hk : Spells k ke) (hv : Spells v ve) (h : SpellsEntries text es) :
    SpellsEntries (k ++ " => ".toList ++ v ++ ",\n".toList ++ text) ((ke, ve) :: es) := by
  obtain ⟨ktoks, hklex, hkparse⟩ := hk
  obtain ⟨vtoks, hvlex, hvparse⟩ := hv
  obtain ⟨toks, hlex, hparse⟩ := h
  refine ⟨ktoks ++ .arrow :: (vtoks ++ .punct ',' :: toks), ?_, .cons hkparse hvparse hparse⟩
  have hkey := (hklex.append lexes_gets (by decide)).append_word hvlex
  have happend := (hkey.append lexes_comma (by decide)).append hlex
  simp only [List.append_assoc, List.cons_append, List.nil_append] at happend
  simp only [List.append_assoc]
  exact happend

theorem SpellsEntries.last {k v : List Char} {ke ve : Expr} (hk : Spells k ke) (hv : Spells v ve) :
    SpellsEntries (k ++ " => ".toList ++ v ++ ['\n']) [(ke, ve)] := by
  obtain ⟨ktoks, hklex, hkparse⟩ := hk
  obtain ⟨vtoks, hvlex, hvparse⟩ := hv
  refine ⟨ktoks ++ .arrow :: vtoks, ?_, .last hkparse hvparse⟩
  have hkey := (hklex.append lexes_gets (by decide)).append_word hvlex
  have happend := hkey.append lexes_newline (by decide)
  simp only [List.append_assoc, List.cons_append, List.nil_append, List.append_nil] at happend
  simp only [List.append_assoc]
  exact happend

/-- Entries with their commas, which others may follow. -/
def Prepends (text : List Char) (es : List (Expr × Expr)) : Prop :=
  ∀ rest es', SpellsEntries rest es' → SpellsEntries (text ++ rest) (es ++ es')

theorem prepends_nil : Prepends [] [] := fun _ _ h => h

theorem prepends_entry {k v : List Char} {ke ve : Expr} (hk : Spells k ke) (hv : Spells v ve) :
    Prepends (k ++ " => ".toList ++ v ++ ",\n".toList) [(ke, ve)] := fun _ _ h => .cons hk hv h

theorem Prepends.append {a b : List Char} {as bs : List (Expr × Expr)} (ha : Prepends a as)
    (hb : Prepends b bs) : Prepends (a ++ b) (as ++ bs) := by
  intro rest es h
  rw [List.append_assoc, List.append_assoc]
  exact ha _ _ (hb _ _ h)

theorem Prepends.entries {text : List Char} {es : List (Expr × Expr)} (h : Prepends text es) :
    SpellsEntries text es := by
  have hend := h [] [] spellsEntries_nil
  rw [List.append_nil, List.append_nil] at hend
  exact hend

theorem SpellsElems.array {text sp : List Char} {xs : List Expr} (h : SpellsElems text xs)
    (hsp : ∀ c ∈ sp, isSpace c = true) :
    SpellsClosed ("[\n".toList ++ text ++ sp ++ "]".toList) (.array xs) := by
  obtain ⟨toks, hlex, hparse⟩ := h
  refine ⟨_, ?_, hparse.array⟩
  have hopen : Lexes "[\n".toList [.punct '['] :=
    (lexes_punct (by decide)).append lexes_newline
  have happend := ((hopen.append hlex).append (lexes_spaces hsp)).append
    (lexes_punct (c := ']') (by decide))
  rw [List.append_nil] at happend
  exact happend

theorem SpellsElems.set {text sp : List Char} {xs : List Expr} (h : SpellsElems text xs)
    (hsp : ∀ c ∈ sp, isSpace c = true) :
    SpellsClosed ("Set.new([\n".toList ++ text ++ sp ++ "])".toList) (.set xs) := by
  obtain ⟨toks, hlex, hparse⟩ := h
  refine ⟨_, ?_, hparse.set⟩
  have hword := lexesWord_word (w := "Set.new".toList) (by decide)
  have hopen : Lexes "([\n".toList [.punct '(', .punct '['] :=
    ((lexes_punct (c := '(') (by decide)).append (lexes_punct (c := '[') (by decide))).append
      lexes_newline
  have hclose : Lexes "])".toList [.punct ']', .punct ')'] :=
    (lexes_punct (c := ']') (by decide)).append (lexes_punct (c := ')') (by decide))
  have happend := (((hword.append hopen (by decide)).append hlex).append
    (lexes_spaces hsp)).append hclose
  rw [List.append_nil] at happend
  simp only [List.append_assoc, List.cons_append, List.nil_append] at happend
  simp only [List.append_assoc]
  exact happend

theorem SpellsEntries.hash {text sp : List Char} {es : List (Expr × Expr)}
    (h : SpellsEntries text es) (hsp : ∀ c ∈ sp, isSpace c = true) :
    SpellsClosed ("\x7b\n".toList ++ text ++ sp ++ "\x7d".toList) (.hash es) := by
  obtain ⟨toks, hlex, hparse⟩ := h
  refine ⟨_, ?_, hparse.hash⟩
  have hopen : Lexes "\x7b\n".toList [.punct '{'] :=
    (lexes_punct (by decide)).append lexes_newline
  have happend := ((hopen.append hlex).append (lexes_spaces hsp)).append
    (lexes_punct (c := '}') (by decide))
  rw [List.append_nil] at happend
  exact happend

/-- A constant's name in full. -/
def pathText (path : List (List Char)) : List Char := path.flatMap ("::".toList ++ ·)

theorem lexesWord_path {path : List (List Char)} (h : ∀ w ∈ path, IsWord w) (hne : path ≠ []) :
    LexesWord (pathText path) (pathTokens path) := by
  induction path with
  | nil => exact absurd rfl hne
  | cons w path ih =>
    obtain ⟨hw, hpath⟩ := List.forall_mem_cons.mp h
    have hfirst : LexesWord ("::".toList ++ w) [.colons, .word w] :=
      lexes_colons.append_word (lexesWord_word hw)
    cases path with
    | nil =>
      intro rest hrest
      change lex ("::".toList ++ w ++ [] ++ rest) = _
      rw [List.append_nil]
      exact hfirst rest hrest
    | cons v path =>
      intro rest hrest
      have hrest' : Stops (pathText (v :: path) ++ rest) := by
        intro c hc
        obtain rfl := Option.some.inj hc
        decide
      change lex ("::".toList ++ w ++ pathText (v :: path) ++ rest) = _
      rw [List.append_assoc, hfirst _ hrest', ih hpath (by simp) rest hrest, Option.map_map]
      rfl

theorem spells_const {path : List (List Char)} (h : ∀ w ∈ path, IsWord w) (hne : path ≠ []) :
    Spells (pathText path) (.const path) := ⟨_, lexesWord_path h hne, parses_const hne⟩

theorem SpellsEntries.new {text sp : List Char} {es : List (Expr × Expr)}
    (h : SpellsEntries text es) (hsp : ∀ c ∈ sp, isSpace c = true) {path : List (List Char)}
    {w : List Char} (hpath : ∀ v ∈ path ++ [w], IsWord v) :
    SpellsClosed (pathText (path ++ [w]) ++ ".new(\x7b\n".toList ++ text ++ sp ++ "\x7d)".toList)
      (.new (path ++ [w]) es) := by
  obtain ⟨toks, hlex, hparse⟩ := h
  refine ⟨_, ?_, hparse.new path w⟩
  have hwords : ∀ v ∈ path ++ [w ++ ".new".toList], IsWord v := by
    intro v hv
    rcases List.mem_append.mp hv with hv | hv
    · exact hpath v (List.mem_append_left _ hv)
    · obtain rfl := List.mem_singleton.mp hv
      obtain ⟨-, hw⟩ := hpath w (by simp)
      have hnew : ∀ c ∈ ".new".toList, isWordChar c = true := by decide
      refine ⟨by simp, fun c hc => ?_⟩
      rcases List.mem_append.mp hc with hc | hc
      · exact hw c hc
      · exact hnew c hc
  have hopen : Lexes "(\x7b\n".toList [.punct '(', .punct '{'] :=
    ((lexes_punct (c := '(') (by decide)).append (lexes_punct (c := '{') (by decide))).append
      lexes_newline
  have hclose : Lexes "\x7d)".toList [.punct '}', .punct ')'] :=
    (lexes_punct (c := '}') (by decide)).append (lexes_punct (c := ')') (by decide))
  have htext : pathText (path ++ [w]) ++ ".new(\x7b\n".toList =
      pathText (path ++ [w ++ ".new".toList]) ++ "(\x7b\n".toList := by
    unfold pathText
    simp only [List.flatMap_append, List.flatMap_singleton, List.append_assoc]
    rfl
  have happend := ((((lexesWord_path hwords (by simp)).append hopen (by decide)).append
    hlex).append (lexes_spaces hsp)).append hclose
  rw [List.append_nil] at happend
  rw [htext]
  simp only [List.append_assoc, List.cons_append, List.nil_append] at happend
  simp only [List.append_assoc]
  exact happend

end Texts

end Sparsam.RubyReader
