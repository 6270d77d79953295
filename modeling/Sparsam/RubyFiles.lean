import Sparsam.RubyReader

set_option autoImplicit false

/-!
# Reading Ruby files

A file has the tokens of its literals and those of the statements around them; the
end of a line is a token outside of brackets only. The statements are `require`
lines, assignments, calls of a method with one name, modules and classes.
-/
namespace Sparsam.RubyFiles
open RubyStrings RubyReader

def newline : Token := .punct '\n'

/-- After a `"`: a word, in which nothing is escaped. -/
def doubleQuoted (cs : List Char) : Option (Token × List Char) :=
  match cs.dropWhile isWordChar with
  | '"' :: rest => some (.string '"' (cs.takeWhile isWordChar), rest)
  | _ => none

/-- The tokens of statements that no literal has. -/
def statementToken : List Char → Option (Token × List Char)
  | '"' :: cs => doubleQuoted cs
  | '=' :: cs => some (.punct '=', cs)
  | '<' :: cs => some (.punct '<', cs)
  | _ => none

def fileToken (text : List Char) : Option (Token × List Char) :=
  (nextToken text).or (statementToken text)

def depthAfter (depth : ℕ) : Token → ℕ
  | .punct c =>
    if c = '(' ∨ c = '[' ∨ c = '{' then depth + 1
    else if c = ')' ∨ c = ']' ∨ c = '}' then depth - 1
    else depth
  | _ => depth

theorem statementToken_length {text rest : List Char} {tok : Token}
    (h : statementToken text = some (tok, rest)) : rest.length < text.length := by
  unfold statementToken at h
  split at h
  · rename_i cs
    unfold doubleQuoted at h
    split at h
    · rename_i rest' hdrop
      obtain ⟨-, rfl⟩ := Prod.mk.inj (Option.some.inj h)
      have hlen := (List.dropWhile_suffix isWordChar (l := cs)).length_le
      rw [hdrop, List.length_cons] at hlen
      rw [List.length_cons]
      omega
    · cases h
  · obtain ⟨-, rfl⟩ := Prod.mk.inj (Option.some.inj h)
    exact Nat.lt_succ_self _
  · obtain ⟨-, rfl⟩ := Prod.mk.inj (Option.some.inj h)
    exact Nat.lt_succ_self _
  · cases h

theorem fileToken_length {text rest : List Char} {tok : Token}
    (h : fileToken text = some (tok, rest)) : rest.length < text.length := by
  rcases Option.or_eq_some_iff.mp h with h | ⟨-, h⟩
  · exact nextToken_length h
  · exact statementToken_length h

/-- The tokens of a text that starts inside so many brackets. -/
def lexFile (depth : ℕ) (text : List Char) : Option (List Token) :=
  match text with
  | [] => some []
  | c :: cs =>
    if c = '\n' ∧ depth = 0 then (lexFile depth cs).map (newline :: ·)
    else if isSpace c then lexFile depth cs
    else if c = '#' then lexFile depth (cs.dropWhile (· ≠ '\n'))
    else
      match _h : fileToken (c :: cs) with
      | none => none
      | some (tok, rest) => (lexFile (depthAfter depth tok) rest).map (tok :: ·)
termination_by text.length
decreasing_by
  · exact Nat.lt_succ_self _
  · exact Nat.lt_succ_self _
  · exact Nat.lt_succ_of_le (List.dropWhile_suffix _).length_le
  · exact fileToken_length _h

inductive Statement where
  | require (path : List Char)
  | assign (name : List Char) (value : Expr)
  /-- `name = value.freeze` -/
  | assignFrozen (name : List Char) (value : Expr)
  /-- `method(argument)` -/
  | call (method argument : List Char)
  | moduleDef (name : List Char) (body : List Statement)
  | classDef (name : List Char) (superclass : List (List Char)) (body : List Statement)

def endLine {α : Type} : Option (α × List Token) → Option (α × List Token)
  | some (x, .punct c :: ts) => if c = '\n' then some (x, ts) else none
  | _ => none

def parseRequire : List Token → Option (Statement × List Token)
  | .string _ path :: ts => endLine (some (.require path, ts))
  | _ => none

/-- After the `=` of an assignment. -/
def parseAssignment (name : List Char) (ts : List Token) : Option (Statement × List Token) :=
  match parseExpr ts.length ts with
  | some (value, .word w :: ts) =>
    if w = ".freeze".toList then endLine (some (.assignFrozen name value, ts)) else none
  | some (value, ts) => endLine (some (.assign name value, ts))
  | none => none

def parseSimple (w : List Char) : List Token → Option (Statement × List Token)
  | .punct '=' :: ts => parseAssignment w ts
  | .punct '(' :: .word argument :: .punct ')' :: ts => endLine (some (.call w argument, ts))
  | _ => none

def moduleHead : List Token → Option (List Char × List Token)
  | .word name :: ts => if isConstantName name then endLine (some (name, ts)) else none
  | _ => none

def classHead : List Token → Option ((List Char × List (List Char)) × List Token)
  | .word name :: .punct '<' :: .colons :: ts =>
    if isConstantName name then endLine ((parsePath ts).map fun r => ((name, r.1), r.2)) else none
  | _ => none

def closeBody : Option (List Statement × List Token) → Option (List Statement × List Token)
  | some (body, .word w :: ts) => if w = "end".toList then endLine (some (body, ts)) else none
  | _ => none

mutual
/-- The statement at the front, read with at most so many bodies inside each other. -/
def parseStatement : ℕ → List Token → Option (Statement × List Token)
  | 0, _ => none
  | n + 1, .word w :: ts =>
    if w = "require".toList then parseRequire ts
    else if w = "module".toList then
      (moduleHead ts).bind fun head =>
        (closeBody (parseStatements n head.2)).map fun r => (.moduleDef head.1 r.1, r.2)
    else if w = "class".toList then
      (classHead ts).bind fun head =>
        (closeBody (parseStatements n head.2)).map fun r => (.classDef head.1.1 head.1.2 r.1, r.2)
    else parseSimple w ts
  | _ + 1, _ => none

/-- Up to an `end` or to the end of the file; lines may be empty. -/
def parseStatements : ℕ → List Token → Option (List Statement × List Token)
  | 0, _ => none
  | _ + 1, [] => some ([], [])
  | n + 1, .punct c :: ts => if c = '\n' then parseStatements n ts else none
  | n + 1, tok :: ts =>
    if tok = .word "end".toList then some ([], tok :: ts)
    else
      (parseStatement n (tok :: ts)).bind fun first =>
        (parseStatements n first.2).map fun r => (first.1 :: r.1, r.2)
end

def parseFile (text : List Char) : Option (List Statement) :=
  match lexFile 0 text with
  | none => none
  | some toks =>
    match parseStatements (toks.length + 1) toks with
    | some (statements, []) => some statements
    | _ => none

mutual
/-- What is assigned is a constant or a local variable, and modules and classes are constants. -/
def Statement.named : Statement → Bool
  | .require _ | .call _ _ => true
  | .assign name value | .assignFrozen name value => nameKind name != .other && value.named
  | .moduleDef name body => isConstantName name && statementsNamed body
  | .classDef name superclass body =>
    isConstantName name && isConstantPath superclass && statementsNamed body

def statementsNamed : List Statement → Bool
  | [] => true
  | s :: ss => s.named && statementsNamed ss
end

/-- The statements that Ruby reads in a file. -/
def readFile (text : List Char) : Option (List Statement) :=
  (parseFile text).filter statementsNamed

theorem statementsNamed_iff {ss : List Statement} :
    statementsNamed ss = true ↔ ∀ s ∈ ss, s.named = true := by
  induction ss with
  | nil => exact iff_of_true rfl fun s hs => absurd hs List.not_mem_nil
  | cons s ss ih =>
    rw [statementsNamed, Bool.and_eq_true, ih, List.forall_mem_cons]

section Brackets

/-- Some bracket stays open before each token and after the last one. -/
def Stays : ℕ → List Token → Prop
  | depth, [] => 1 ≤ depth
  | depth, tok :: toks => 1 ≤ depth ∧ Stays (depthAfter depth tok) toks

/-- Every bracket is closed, and none of those around the tokens. -/
def Balanced (toks : List Token) : Prop :=
  ∀ depth, 1 ≤ depth → Stays depth toks ∧ toks.foldl depthAfter depth = depth

/-- An opening bracket and the one that closes it. -/
inductive Pair : Char → Char → Prop
  | round : Pair '(' ')'
  | square : Pair '[' ']'
  | curly : Pair '{' '}'

theorem Stays.pos {depth : ℕ} {toks : List Token} (h : Stays depth toks) : 1 ≤ depth := by
  cases toks with
  | nil => exact h
  | cons tok toks => exact h.1

theorem Stays.append {depth : ℕ} {as bs : List Token} (ha : Stays depth as)
    (hb : Stays (as.foldl depthAfter depth) bs) : Stays depth (as ++ bs) := by
  induction as generalizing depth with
  | nil => exact hb
  | cons tok as ih => exact ⟨ha.1, ih ha.2 hb⟩

theorem balanced_nil : Balanced [] := fun _ h => ⟨h, rfl⟩

theorem Balanced.append {as bs : List Token} (ha : Balanced as) (hb : Balanced bs) :
    Balanced (as ++ bs) := by
  intro depth h
  obtain ⟨hstays, hdepth⟩ := ha depth h
  obtain ⟨hstays', hdepth'⟩ := hb depth h
  rw [List.foldl_append, hdepth]
  exact ⟨hstays.append (hdepth.symm ▸ hstays'), hdepth'⟩

theorem balanced_token {tok : Token} (h : ∀ depth, depthAfter depth tok = depth) :
    Balanced [tok] := by
  intro depth hdepth
  refine ⟨⟨hdepth, ?_⟩, h depth⟩
  rw [h]
  exact hdepth

theorem Pair.opens {o c : Char} (h : Pair o c) (depth : ℕ) :
    depthAfter depth (.punct o) = depth + 1 := by
  cases h <;> rfl

theorem Pair.closes {o c : Char} (h : Pair o c) (depth : ℕ) :
    depthAfter (depth + 1) (.punct c) = depth := by
  cases h <;> rfl

theorem Balanced.group {o c : Char} (hpair : Pair o c) {toks : List Token} (h : Balanced toks) :
    Balanced (.punct o :: (toks ++ [.punct c])) := by
  intro depth hdepth
  obtain ⟨hstays, hinner⟩ := h (depth + 1) (Nat.le_add_left 1 depth)
  have hlast : Stays (depth + 1) [.punct c] := by
    refine ⟨Nat.le_add_left 1 depth, ?_⟩
    rw [hpair.closes]
    exact hdepth
  refine ⟨⟨hdepth, ?_⟩, ?_⟩
  · rw [hpair.opens]
    exact hstays.append (hinner.symm ▸ hlast)
  · rw [List.foldl_cons, hpair.opens, List.foldl_append, hinner]
    exact hpair.closes depth

theorem parsePath_balanced {ts rest : List Token} {path : List (List Char)}
    (h : parsePath ts = some (path, rest)) : ∃ toks, ts = toks ++ rest ∧ Balanced toks := by
  have hword : ∀ w : List Char, Balanced [.word w] := fun w => balanced_token fun _ => rfl
  fun_induction parsePath ts generalizing path with
  | case1 w ts ih =>
    obtain ⟨⟨path', rest'⟩, hpath, heq⟩ := Option.map_eq_some_iff.mp h
    obtain ⟨-, rfl⟩ := Prod.mk.inj heq
    obtain ⟨toks, rfl, htoks⟩ := ih hpath
    have hcolons : Balanced [.colons] := balanced_token fun _ => rfl
    exact ⟨.word w :: .colons :: toks, rfl, ((hword w).append hcolons).append htoks⟩
  | case2 w ts =>
    obtain ⟨-, rfl⟩ := Prod.mk.inj (Option.some.inj h)
    exact ⟨[.word w], rfl, hword w⟩
  | case3 => cases h

/-- What an expression, elements or entries are read from is balanced. -/
structure ReadsBalanced (n : ℕ) : Prop where
  expr : ∀ {ts rest e}, parseExpr n ts = some (e, rest) → ∃ toks, ts = toks ++ rest ∧ Balanced toks
  elems : ∀ {ts rest xs}, parseElems n ts = some (xs, rest) →
    ∃ toks, ts = toks ++ .punct ']' :: rest ∧ Balanced toks
  entries : ∀ {ts rest es}, parseEntries n ts = some (es, rest) →
    ∃ toks, ts = toks ++ .punct '}' :: rest ∧ Balanced toks

theorem closeCall_eq {α : Type} {r : Option (α × List Token)} {x : α} {rest : List Token}
    (h : closeCall r = some (x, rest)) : r = some (x, .punct ')' :: rest) := by
  unfold closeCall at h
  split at h
  · obtain ⟨rfl, rfl⟩ := Prod.mk.inj (Option.some.inj h)
    rfl
  · cases h

theorem expr_balanced {n : ℕ} (ih : ReadsBalanced n) {ts rest : List Token} {e : Expr}
    (h : parseExpr (n + 1) ts = some (e, rest)) : ∃ toks, ts = toks ++ rest ∧ Balanced toks := by
  have htoken : ∀ tok : Token, (∀ depth, depthAfter depth tok = depth) → Balanced [tok] :=
    fun tok => balanced_token
  unfold parseExpr at h
  split at h
  · rename_i delim raw ts
    obtain ⟨-, rfl⟩ := Prod.mk.inj (Option.some.inj h)
    exact ⟨[.string delim raw], rfl, htoken _ fun _ => rfl⟩
  · rename_i name ts
    obtain ⟨-, rfl⟩ := Prod.mk.inj (Option.some.inj h)
    exact ⟨[.sym name], rfl, htoken _ fun _ => rfl⟩
  · rename_i w ts
    have hw : Balanced [.word w] := htoken _ fun _ => rfl
    split at h
    · split at h
      · rename_i ts
        obtain ⟨⟨xs, rest'⟩, hclose, heq⟩ := Option.map_eq_some_iff.mp h
        obtain ⟨-, rfl⟩ := Prod.mk.inj heq
        obtain ⟨toks, rfl, htoks⟩ := ih.elems (closeCall_eq hclose)
        have hset := hw.append ((htoks.group .square).group .round)
        refine ⟨_, ?_, hset⟩
        simp
      · cases h
    · obtain ⟨-, rfl⟩ := Prod.mk.inj (Option.some.inj h)
      exact ⟨[.word w], rfl, hw⟩
  · rename_i ts
    have hcolons : Balanced [.colons] := htoken _ fun _ => rfl
    split at h
    · rename_i path ts' hpath
      obtain ⟨klass, -, h⟩ := Option.bind_eq_some_iff.mp h
      obtain ⟨⟨es, rest'⟩, hclose, heq⟩ := Option.map_eq_some_iff.mp h
      obtain ⟨-, rfl⟩ := Prod.mk.inj heq
      obtain ⟨names, rfl, hnames⟩ := parsePath_balanced hpath
      obtain ⟨toks, rfl, htoks⟩ := ih.entries (closeCall_eq hclose)
      have hnew := (hcolons.append hnames).append ((htoks.group .curly).group .round)
      refine ⟨_, ?_, hnew⟩
      simp
    · rename_i path ts' _ hpath
      obtain ⟨-, rfl⟩ := Prod.mk.inj (Option.some.inj h)
      obtain ⟨names, rfl, hnames⟩ := parsePath_balanced hpath
      exact ⟨.colons :: names, rfl, hcolons.append hnames⟩
    · cases h
  · obtain ⟨⟨xs, rest'⟩, helems, heq⟩ := Option.map_eq_some_iff.mp h
    obtain ⟨-, rfl⟩ := Prod.mk.inj heq
    obtain ⟨toks, rfl, htoks⟩ := ih.elems helems
    refine ⟨_, ?_, htoks.group .square⟩
    simp
  · obtain ⟨⟨es, rest'⟩, hentries, heq⟩ := Option.map_eq_some_iff.mp h
    obtain ⟨-, rfl⟩ := Prod.mk.inj heq
    obtain ⟨toks, rfl, htoks⟩ := ih.entries hentries
    refine ⟨_, ?_, htoks.group .curly⟩
    simp
  · cases h

theorem elems_balanced {n : ℕ} (ih : ReadsBalanced n) {ts rest : List Token} {xs : List Expr}
    (h : parseElems (n + 1) ts = some (xs, rest)) :
    ∃ toks, ts = toks ++ .punct ']' :: rest ∧ Balanced toks := by
  have hcomma : Balanced [.punct ','] := balanced_token fun _ => rfl
  unfold parseElems at h
  split at h
  · obtain ⟨-, rfl⟩ := Prod.mk.inj (Option.some.inj h)
    exact ⟨[], rfl, balanced_nil⟩
  split at h
  · rename_i x ts' hexpr
    obtain ⟨⟨xs', rest'⟩, helems, heq⟩ := Option.map_eq_some_iff.mp h
    obtain ⟨-, rfl⟩ := Prod.mk.inj heq
    obtain ⟨first, rfl, hfirst⟩ := ih.expr hexpr
    obtain ⟨toks, rfl, htoks⟩ := ih.elems helems
    refine ⟨first ++ [.punct ','] ++ toks, ?_, (hfirst.append hcomma).append htoks⟩
    simp
  · rename_i x ts' hexpr
    obtain ⟨-, rfl⟩ := Prod.mk.inj (Option.some.inj h)
    exact ih.expr hexpr
  · cases h

theorem entries_balanced {n : ℕ} (ih : ReadsBalanced n) {ts rest : List Token}
    {es : List (Expr × Expr)} (h : parseEntries (n + 1) ts = some (es, rest)) :
    ∃ toks, ts = toks ++ .punct '}' :: rest ∧ Balanced toks := by
  have hcomma : Balanced [.punct ','] := balanced_token fun _ => rfl
  have harrow : Balanced [.arrow] := balanced_token fun _ => rfl
  unfold parseEntries at h
  split at h
  · obtain ⟨-, rfl⟩ := Prod.mk.inj (Option.some.inj h)
    exact ⟨[], rfl, balanced_nil⟩
  split at h
  · rename_i k ts' hkey
    obtain ⟨ktoks, rfl, hktoks⟩ := ih.expr hkey
    split at h
    · rename_i v ts'' hvalue
      obtain ⟨⟨es', rest'⟩, hentries, heq⟩ := Option.map_eq_some_iff.mp h
      obtain ⟨-, rfl⟩ := Prod.mk.inj heq
      obtain ⟨vtoks, rfl, hvtoks⟩ := ih.expr hvalue
      obtain ⟨toks, rfl, htoks⟩ := ih.entries hentries
      have hfirst := ((hktoks.append harrow).append hvtoks).append hcomma
      refine ⟨_, ?_, hfirst.append htoks⟩
      simp
    · rename_i v ts'' hvalue
      obtain ⟨-, rfl⟩ := Prod.mk.inj (Option.some.inj h)
      obtain ⟨vtoks, rfl, hvtoks⟩ := ih.expr hvalue
      refine ⟨_, ?_, (hktoks.append harrow).append hvtoks⟩
      simp
    · cases h
  · cases h

theorem readsBalanced (n : ℕ) : ReadsBalanced n := by
  induction n with
  | zero =>
    refine ⟨fun h => ?_, fun h => ?_, fun h => ?_⟩ <;> cases h
  | succ n ih => exact ⟨expr_balanced ih, elems_balanced ih, entries_balanced ih⟩

theorem parsesElems_balanced {toks : List Token} {xs : List Expr} (h : ParsesElems toks xs) :
    Balanced toks := by
  have hread := h (toks.length + 1) [] (Nat.lt_succ_self _)
  obtain ⟨toks', heq, hbalanced⟩ := (readsBalanced _).elems hread
  rw [List.append_cancel_right heq]
  exact hbalanced

theorem parsesEntries_balanced {toks : List Token} {es : List (Expr × Expr)}
    (h : ParsesEntries toks es) : Balanced toks := by
  have hread := h (toks.length + 1) [] (Nat.lt_succ_self _)
  obtain ⟨toks', heq, hbalanced⟩ := (readsBalanced _).entries hread
  rw [List.append_cancel_right heq]
  exact hbalanced

end Brackets

section Tokens

theorem scanQuoted_append {delim : Char} {text raw rest : List Char}
    (h : scanQuoted delim text = some (raw, rest)) (more : List Char) :
    scanQuoted delim (text ++ more) = some (raw, rest ++ more) := by
  fun_induction scanQuoted delim text generalizing raw rest with
  | case1 => cases h
  | case2 cs =>
    obtain ⟨rfl, rfl⟩ := Prod.mk.inj (Option.some.inj h)
    rw [List.cons_append, scanQuoted.eq_def]
    dsimp only
    rw [if_pos rfl]
  | case3 => cases h
  | case4 d ds hend ih =>
    obtain ⟨⟨raw', rest'⟩, hr, heq⟩ := Option.map_eq_some_iff.mp h
    obtain ⟨rfl, rfl⟩ := Prod.mk.inj heq
    rw [List.cons_append, scanQuoted.eq_def]
    dsimp only
    rw [if_neg hend, if_pos rfl, List.cons_append]
    dsimp only
    rw [ih hr]
    rfl
  | case5 c cs hend hslash ih =>
    obtain ⟨⟨raw', rest'⟩, hr, heq⟩ := Option.map_eq_some_iff.mp h
    obtain ⟨rfl, rfl⟩ := Prod.mk.inj heq
    rw [List.cons_append, scanQuoted.eq_def]
    dsimp only
    rw [if_neg hend, if_neg hslash, ih hr]
    rfl

variable {o c : Char}

theorem Pair.isWordChar (h : Pair o c) : isWordChar c = false := by
  cases h <;> decide

theorem span_append (h : isWordChar c = false) (cs more : List Char) :
    (cs ++ c :: more).takeWhile isWordChar = cs.takeWhile isWordChar ∧
      (cs ++ c :: more).dropWhile isWordChar = cs.dropWhile isWordChar ++ c :: more := by
  induction cs with
  | nil => simp [h]
  | cons d cs ih =>
    cases hd : isWordChar d with
    | true =>
      rw [List.cons_append, List.takeWhile_cons_of_pos hd, List.takeWhile_cons_of_pos hd,
        List.dropWhile_cons_of_pos hd, List.dropWhile_cons_of_pos hd, ih.1, ih.2]
      exact ⟨rfl, rfl⟩
    | false => simp [hd]

theorem nextToken_append (hpair : Pair o c) {text rest : List Char} {tok : Token}
    (h : nextToken text = some (tok, rest)) (more : List Char) :
    nextToken (text ++ c :: more) = some (tok, rest ++ c :: more) := by
  cases text with
  | nil => cases h
  | cons d cs =>
    obtain ⟨htake, hdrop⟩ := span_append hpair.isWordChar cs more
    rw [List.cons_append]
    unfold nextToken at h ⊢
    dsimp only at h ⊢
    split at h
    · obtain ⟨⟨raw, rest'⟩, hscan, heq⟩ := Option.map_eq_some_iff.mp h
      obtain ⟨rfl, rfl⟩ := Prod.mk.inj heq
      rw [if_pos ‹_›, scanQuoted_append hscan]
      rfl
    rw [if_neg ‹_›]
    split at h
    · rw [if_pos ‹_›]
      unfold percentToken at h
      split at h
      · obtain ⟨⟨raw, rest'⟩, hscan, heq⟩ := Option.map_eq_some_iff.mp h
        obtain ⟨rfl, rfl⟩ := Prod.mk.inj heq
        change (scanQuoted '"' (_ ++ c :: more)).map _ = _
        rw [scanQuoted_append hscan]
        rfl
      · cases h
    rw [if_neg ‹_›]
    split at h
    · rw [if_pos ‹_›]
      refine congrArg some ?_
      replace h := Option.some.inj h
      unfold colonToken at h
      split at h
      · obtain ⟨rfl, rfl⟩ := Prod.mk.inj h
        rfl
      · rename_i hcolon
        obtain ⟨rfl, rfl⟩ := Prod.mk.inj h
        have hhead : ∀ ds, cs ++ c :: more ≠ ':' :: ds := by
          intro ds heq
          cases cs with
          | nil => cases hpair <;> cases heq
          | cons e cs =>
            obtain ⟨rfl, -⟩ := List.cons.inj heq
            exact hcolon cs rfl
        unfold colonToken
        split
        · rename_i heq
          exact absurd heq (hhead _)
        · rw [htake, hdrop]
    rw [if_neg ‹_›]
    split at h
    · rw [if_pos ‹_›]
      unfold arrowToken at h
      split at h
      · obtain ⟨rfl, rfl⟩ := Prod.mk.inj (Option.some.inj h)
        rfl
      · cases h
    rw [if_neg ‹_›]
    split at h
    · rw [if_pos ‹_›]
      obtain ⟨rfl, rfl⟩ := Prod.mk.inj (Option.some.inj h)
      rfl
    rw [if_neg ‹_›]
    split at h
    · rw [if_pos ‹_›, htake, hdrop]
      obtain ⟨rfl, rfl⟩ := Prod.mk.inj (Option.some.inj h)
      rfl
    · cases h

end Tokens

section Lexing

theorem lexFile_newline (cs : List Char) :
    lexFile 0 ('\n' :: cs) = (lexFile 0 cs).map (newline :: ·) := by
  rw [lexFile, if_pos ⟨rfl, rfl⟩]

theorem lexFile_space {c : Char} {depth : ℕ} (hc : isSpace c = true) (h : c ≠ '\n' ∨ depth ≠ 0)
    (cs : List Char) : lexFile depth (c :: cs) = lexFile depth cs := by
  have hline : ¬ (c = '\n' ∧ depth = 0) := fun hboth => h.elim (· hboth.1) (· hboth.2)
  rw [lexFile, if_neg hline, if_pos hc]

theorem lexFile_comment (depth : ℕ) (cs : List Char) :
    lexFile depth ('#' :: cs) = lexFile depth (cs.dropWhile (· ≠ '\n')) := by
  rw [lexFile, if_neg (by simp), if_neg (by decide), if_pos rfl]

theorem lexFile_token {c : Char} {cs rest : List Char} {tok : Token} (depth : ℕ)
    (hc : isSpace c = false) (h : fileToken (c :: cs) = some (tok, rest)) :
    lexFile depth (c :: cs) = (lexFile (depthAfter depth tok) rest).map (tok :: ·) := by
  have hline : ¬ (c = '\n' ∧ depth = 0) := by
    rintro ⟨rfl, -⟩
    cases hc
  have hcomment : c ≠ '#' := by
    rintro rfl
    cases h
  rw [lexFile, if_neg hline, if_neg (by simp [hc]), if_neg hcomment]
  split
  · rename_i hnone
    rw [hnone] at h
    cases h
  · rename_i hsome
    rw [hsome] at h
    obtain ⟨rfl, rfl⟩ := Prod.mk.inj (Option.some.inj h)
    rfl

theorem fileToken_of_nextToken {text rest : List Char} {tok : Token}
    (h : nextToken text = some (tok, rest)) : fileToken text = some (tok, rest) := by
  unfold fileToken
  rw [h]
  rfl

variable {o c : Char}

/-- What stands inside a bracket has the tokens that it has where the ends of lines do not
    count. The first two hypotheses say that no comment goes over the closing bracket. -/
theorem lexFile_inside (hpair : Pair o c) {text : List Char} {toks : List Token}
    (hlex : lex text = some toks) (hclosed : lex (text ++ [c]) = some (toks ++ [.punct c]))
    {depth : ℕ} (hstays : Stays depth toks) (more : List Char) :
    lexFile depth (text ++ c :: more) =
      (lexFile (toks.foldl depthAfter depth) (c :: more)).map (toks ++ ·) := by
  fun_induction lex text generalizing toks depth with
  | case1 =>
    obtain rfl := Option.some.inj hlex
    change lexFile depth (c :: more) = (lexFile depth (c :: more)).map _
    cases lexFile depth (c :: more) <;> rfl
  | case2 d cs hd ih =>
    rw [List.cons_append, lex_space hd] at hclosed
    rw [List.cons_append, lexFile_space hd (.inr (by have := hstays.pos; omega))]
    exact ih hlex hclosed hstays
  | case3 cs hd ih =>
    have hcomment : lex ('#' :: (cs ++ [c])) = lex ((cs ++ [c]).dropWhile (· ≠ '\n')) := by
      rw [lex, if_neg (by decide), if_pos rfl]
    rw [List.cons_append, hcomment, List.dropWhile_append] at hclosed
    rw [List.cons_append, lexFile_comment, List.dropWhile_append]
    split at hclosed
    · have hend : [c].dropWhile (fun c => decide (c ≠ '\n')) = [] := by
        cases hpair <;> rfl
      rw [hend, lex] at hclosed
      simp at hclosed
    · rename_i hrest
      rw [if_neg hrest]
      exact ih hlex hclosed hstays
  | case4 d cs hd hcomment hnone => cases hlex
  | case5 d cs hd hcomment tok rest hnext ih =>
    obtain ⟨toks', hrest, rfl⟩ := Option.map_eq_some_iff.mp hlex
    rw [Bool.not_eq_true] at hd
    have hone : nextToken (d :: (cs ++ [c])) = some (tok, rest ++ [c]) :=
      nextToken_append hpair hnext []
    rw [List.cons_append, lex_token hd hone] at hclosed
    obtain ⟨toks'', hclosed, heq⟩ := Option.map_eq_some_iff.mp hclosed
    obtain rfl := (List.cons.inj heq).2
    have hmore : fileToken (d :: (cs ++ c :: more)) = some (tok, rest ++ c :: more) :=
      fileToken_of_nextToken (nextToken_append hpair hnext more)
    rw [List.cons_append, lexFile_token depth hd hmore, ih hrest hclosed hstays.2, Option.map_map]
    rfl

/-- The text has these tokens inside any number of brackets. -/
def Scans (text : List Char) (toks : List Token) : Prop :=
  ∀ depth rest, lexFile depth (text ++ rest) = (lexFile depth rest).map (toks ++ ·)

/-- The text has these tokens unless a word goes on after it. -/
def ScansWord (text : List Char) (toks : List Token) : Prop :=
  ∀ depth rest, Stops rest → lexFile depth (text ++ rest) = (lexFile depth rest).map (toks ++ ·)

/-- The text has these tokens outside of brackets. -/
def Lines (text : List Char) (toks : List Token) : Prop :=
  ∀ rest, lexFile 0 (text ++ rest) = (lexFile 0 rest).map (toks ++ ·)

theorem Scans.word {text : List Char} {toks : List Token} (h : Scans text toks) :
    ScansWord text toks := fun depth rest _ => h depth rest

theorem Scans.lines {text : List Char} {toks : List Token} (h : Scans text toks) :
    Lines text toks := h 0

theorem map_append_append (as bs : List Token) (ts : Option (List Token)) :
    (ts.map (bs ++ ·)).map (as ++ ·) = ts.map (as ++ bs ++ ·) := by
  rw [Option.map_map]
  congr 1
  funext more
  exact (List.append_assoc as bs more).symm

theorem Scans.append {a b : List Char} {as bs : List Token} (ha : Scans a as) (hb : Scans b bs) :
    Scans (a ++ b) (as ++ bs) := by
  intro depth rest
  rw [List.append_assoc, ha, hb, map_append_append]

theorem Scans.append_word {a b : List Char} {as bs : List Token} (ha : Scans a as)
    (hb : ScansWord b bs) : ScansWord (a ++ b) (as ++ bs) := by
  intro depth rest hrest
  rw [List.append_assoc, ha, hb depth rest hrest, map_append_append]

theorem ScansWord.append {a b : List Char} {as bs : List Token} (ha : ScansWord a as)
    (hb : Scans b bs) (hcloses : Closes b) : Scans (a ++ b) (as ++ bs) := by
  intro depth rest
  rw [List.append_assoc, ha _ _ (hcloses.stops rest), hb, map_append_append]

theorem ScansWord.append_word {a b : List Char} {as bs : List Token} (ha : ScansWord a as)
    (hb : ScansWord b bs) (hcloses : Closes b) : ScansWord (a ++ b) (as ++ bs) := by
  intro depth rest hrest
  rw [List.append_assoc, ha _ _ (hcloses.stops rest), hb depth rest hrest, map_append_append]

theorem Lines.append {a b : List Char} {as bs : List Token} (ha : Lines a as) (hb : Lines b bs) :
    Lines (a ++ b) (as ++ bs) := by
  intro rest
  rw [List.append_assoc, ha, hb, map_append_append]

theorem scans_nil : Scans [] [] := by
  intro depth rest
  change lexFile depth rest = _
  cases lexFile depth rest <;> rfl

theorem scans_blanks {text : List Char} (h : ∀ c ∈ text, c = ' ') : Scans text [] := by
  intro depth rest
  induction text with
  | nil => exact scans_nil depth rest
  | cons c text ih =>
    obtain ⟨rfl, htext⟩ := List.forall_mem_cons.mp h
    rw [List.cons_append, lexFile_space (by decide) (.inl (by decide))]
    exact ih htext

theorem scans_token {c : Char} {cs : List Char} {tok : Token} (hc : isSpace c = false)
    (h : ∀ rest, fileToken (c :: (cs ++ rest)) = some (tok, rest))
    (hdepth : ∀ depth, depthAfter depth tok = depth) : Scans (c :: cs) [tok] := by
  intro depth rest
  rw [List.cons_append, lexFile_token depth hc (h rest), hdepth]
  rfl

theorem scans_blank : Scans [' '] [] := scans_blanks (by decide)

theorem scans_comma : Scans ", ".toList [.punct ','] := by
  have hcomma : Scans [','] [.punct ','] := scans_token (by decide) (fun _ => rfl) fun _ => rfl
  exact hcomma.append scans_blank

theorem scans_arrow : Scans " => ".toList [.arrow] := by
  have harrow : Scans "=>".toList [.arrow] := scans_token (by decide) (fun _ => rfl) fun _ => rfl
  exact (scans_blank.append harrow).append scans_blank

theorem scans_gets : Scans " = ".toList [.punct '='] := by
  have hequals : ∀ depth rest, lexFile depth (['=', ' '] ++ rest) =
      (lexFile depth rest).map ([.punct '='] ++ ·) := by
    intro depth rest
    have hnext : fileToken ('=' :: ' ' :: rest) = some (.punct '=', ' ' :: rest) := rfl
    change lexFile depth ('=' :: ' ' :: rest) = _
    rw [lexFile_token depth (by decide) hnext]
    change (lexFile depth (' ' :: rest)).map _ = _
    rw [lexFile_space (by decide) (.inl (by decide))]
    rfl
  exact scans_blank.append hequals

theorem scansWord_word {w : List Char} (h : IsWord w) : ScansWord w [.word w] := by
  obtain ⟨hne, hw⟩ := h
  cases w with
  | nil => exact absurd rfl hne
  | cons c w =>
    obtain ⟨hc, hw⟩ := List.forall_mem_cons.mp hw
    intro depth rest hrest
    obtain ⟨htake, hdrop⟩ := takeWhile_word hw hrest
    have hnext := fileToken_of_nextToken (nextToken_word hc (w ++ rest))
    rw [htake, hdrop] at hnext
    rw [List.cons_append, lexFile_token depth (isSpace_word hc) hnext]
    rfl

theorem scans_doubleQuoted {w : List Char} (h : ∀ c ∈ w, isWordChar c = true) :
    Scans ('"' :: (w ++ ['"'])) [.string '"' w] := by
  refine scans_token (by decide) (fun rest => ?_) fun _ => rfl
  have hstops : Stops ('"' :: rest) := by
    intro c hc
    obtain rfl := Option.some.inj hc
    decide
  obtain ⟨htake, hdrop⟩ := takeWhile_word h hstops
  have hnext : statementToken ('"' :: (w ++ '"' :: rest)) = some (.string '"' w, rest) := by
    change doubleQuoted (w ++ '"' :: rest) = _
    unfold doubleQuoted
    rw [hdrop, htake]
    rfl
  unfold fileToken
  rw [List.append_assoc, List.singleton_append, hnext]
  rfl

theorem scans_percentQ {raw : List Char} (h : Inside '"' raw) :
    Scans ("%q\"".toList ++ raw ++ ['"']) [.string '"' raw] := by
  change Scans ('%' :: ("q\"".toList ++ raw ++ ['"'])) _
  refine scans_token (by decide) (fun rest => ?_) fun _ => rfl
  have hscan := h rest
  rw [← List.singleton_append, ← List.append_assoc] at hscan
  refine fileToken_of_nextToken ?_
  change (scanQuoted '"' (raw ++ ['"'] ++ rest)).map _ = _
  rw [hscan]
  rfl

theorem scans_quoted {raw : List Char} (h : Inside (Char.ofNat 39) raw) :
    Scans (Char.ofNat 39 :: (raw ++ [Char.ofNat 39])) [.string (Char.ofNat 39) raw] := by
  refine scans_token (by decide) (fun rest => ?_) fun _ => rfl
  have hscan := h rest
  rw [← List.singleton_append, ← List.append_assoc] at hscan
  refine fileToken_of_nextToken ?_
  change (scanQuoted (Char.ofNat 39) (raw ++ [Char.ofNat 39] ++ rest)).map _ = _
  rw [hscan]
  rfl

theorem lexFile_open (hpair : Pair o c) (depth : ℕ) (cs : List Char) :
    lexFile depth (o :: cs) = (lexFile (depth + 1) cs).map (.punct o :: ·) := by
  have hnext : isSpace o = false ∧ fileToken (o :: cs) = some (.punct o, cs) := by
    cases hpair <;> exact ⟨by decide, rfl⟩
  rw [lexFile_token depth hnext.1 hnext.2, hpair.opens]

theorem lexFile_close (hpair : Pair o c) (depth : ℕ) (cs : List Char) :
    lexFile (depth + 1) (c :: cs) = (lexFile depth cs).map (.punct c :: ·) := by
  have hnext : isSpace c = false ∧ fileToken (c :: cs) = some (.punct c, cs) := by
    cases hpair <;> exact ⟨by decide, rfl⟩
  rw [lexFile_token (depth + 1) hnext.1 hnext.2, hpair.closes]

theorem ScansWord.group (hpair : Pair o c) {inner : List Char} {toks : List Token}
    (h : ScansWord inner toks) :
    Scans (o :: (inner ++ [c])) (.punct o :: (toks ++ [.punct c])) := by
  intro depth rest
  have hstops : Stops (c :: rest) := by
    intro d hd
    obtain rfl := Option.some.inj hd
    exact hpair.isWordChar
  rw [List.cons_append, lexFile_open hpair, List.append_assoc, List.singleton_append,
    h _ _ hstops, lexFile_close hpair]
  simp only [Option.map_map]
  congr 1
  funext ts
  simp

theorem scans_bracket (hpair : Pair o c) {inner : List Char} {toks : List Token}
    (h : Lexes inner toks) (hbalanced : Balanced toks) :
    Scans (o :: (inner ++ [c])) (.punct o :: (toks ++ [.punct c])) := by
  intro depth rest
  obtain ⟨hstays, hdepth⟩ := hbalanced (depth + 1) (Nat.le_add_left 1 depth)
  have hlex : lex inner = some toks := by
    have hnil := h []
    rw [List.append_nil, lex] at hnil
    rw [hnil, Option.map_some, List.append_nil]
  have hclosed : lex (inner ++ [c]) = some (toks ++ [.punct c]) := by
    have hclose : lex [c] = some [.punct c] := by
      have hone := lexes_punct (c := c) (by cases hpair <;> decide) []
      rw [List.append_nil, lex] at hone
      exact hone
    rw [h, hclose]
    rfl
  rw [List.cons_append, lexFile_open hpair, List.append_assoc, List.singleton_append,
    lexFile_inside hpair hlex hclosed hstays, hdepth, lexFile_close hpair]
  simp only [Option.map_map]
  congr 1
  funext ts
  simp

end Lexing

section Values

/-- The text is the expression, on its line or over the lines of a bracket. -/
def Value (text : List Char) (e : Expr) : Prop := ∃ toks, ScansWord text toks ∧ Parses toks e

def ClosedValue (text : List Char) (e : Expr) : Prop := ∃ toks, Scans text toks ∧ Parses toks e

theorem ClosedValue.value {text : List Char} {e : Expr} (h : ClosedValue text e) :
    Value text e := by
  obtain ⟨toks, hscans, hparses⟩ := h
  exact ⟨toks, hscans.word, hparses⟩

theorem value_word {w : List Char} (h : IsWord w) (hset : w ≠ "Set.new".toList) :
    Value w (.word w) := ⟨_, scansWord_word h, parses_word hset⟩

theorem value_percentQ {raw : List Char} (h : Inside '"' raw) :
    ClosedValue ("%q\"".toList ++ raw ++ ['"']) (.string '"' raw) :=
  ⟨_, scans_percentQ h, parses_string _ _⟩

theorem value_doubleQuoted {w : List Char} (h : ∀ c ∈ w, isWordChar c = true) :
    ClosedValue ('"' :: (w ++ ['"'])) (.string '"' w) :=
  ⟨_, scans_doubleQuoted h, parses_string _ _⟩

theorem Value.indent {sp text : List Char} {e : Expr} (hsp : ∀ c ∈ sp, c = ' ')
    (h : Value text e) : Value (sp ++ text) e := by
  obtain ⟨toks, hscans, hparses⟩ := h
  exact ⟨toks, (scans_blanks hsp).append_word hscans, hparses⟩

variable {o c : Char} {text sp : List Char}

theorem scans_lines (hpair : Pair o c) {toks : List Token} (h : Lexes text toks)
    (hbalanced : Balanced toks) (hsp : ∀ d ∈ sp, isSpace d = true) :
    Scans (o :: '\n' :: (text ++ sp ++ [c])) (.punct o :: (toks ++ [.punct c])) := by
  have hinner := (lexes_newline.append h).append (lexes_spaces hsp)
  rw [List.append_nil, List.nil_append] at hinner
  exact scans_bracket hpair hinner hbalanced

theorem value_array {xs : List Expr} (h : SpellsElems text xs) (hsp : ∀ d ∈ sp, isSpace d = true) :
    ClosedValue ("[\n".toList ++ text ++ sp ++ "]".toList) (.array xs) := by
  obtain ⟨toks, hlex, hparse⟩ := h
  refine ⟨_, ?_, hparse.array⟩
  have hscans := scans_lines .square hlex (parsesElems_balanced hparse) hsp
  simp only [List.append_assoc] at hscans ⊢
  exact hscans

theorem value_hash {es : List (Expr × Expr)} (h : SpellsEntries text es)
    (hsp : ∀ d ∈ sp, isSpace d = true) :
    ClosedValue ("\x7b\n".toList ++ text ++ sp ++ "\x7d".toList) (.hash es) := by
  obtain ⟨toks, hlex, hparse⟩ := h
  refine ⟨_, ?_, hparse.hash⟩
  have hscans := scans_lines .curly hlex (parsesEntries_balanced hparse) hsp
  simp only [List.append_assoc] at hscans ⊢
  exact hscans

theorem value_set {xs : List Expr} (h : SpellsElems text xs) (hsp : ∀ d ∈ sp, isSpace d = true) :
    ClosedValue ("Set.new([\n".toList ++ text ++ sp ++ "])".toList) (.set xs) := by
  obtain ⟨toks, hlex, hparse⟩ := h
  refine ⟨_, ?_, hparse.set⟩
  have hword : ScansWord "Set.new".toList [.word "Set.new".toList] := scansWord_word (by decide)
  have hinner := scans_lines .square hlex (parsesElems_balanced hparse) hsp
  have hscans := hword.append (hinner.word.group .round) rfl
  simp only [List.append_assoc, List.cons_append, List.nil_append] at hscans ⊢
  exact hscans

theorem scansWord_path {path : List (List Char)} (h : ∀ w ∈ path, IsWord w) (hne : path ≠ []) :
    ScansWord (pathText path) (pathTokens path) := by
  have hcolons : Scans "::".toList [.colons] :=
    scans_token (by decide) (fun _ => rfl) fun _ => rfl
  induction path with
  | nil => exact absurd rfl hne
  | cons w path ih =>
    obtain ⟨hw, hpath⟩ := List.forall_mem_cons.mp h
    have hfirst := hcolons.append_word (scansWord_word hw)
    cases path with
    | nil =>
      intro depth rest hrest
      change lexFile depth ("::".toList ++ w ++ [] ++ rest) = _
      rw [List.append_nil]
      exact hfirst depth rest hrest
    | cons v path => exact hfirst.append_word (ih hpath (by simp)) rfl

theorem value_new {es : List (Expr × Expr)} (h : SpellsEntries text es)
    (hsp : ∀ d ∈ sp, isSpace d = true) {path : List (List Char)} {w : List Char}
    (hpath : ∀ v ∈ path ++ [w], IsWord v) :
    ClosedValue (pathText (path ++ [w]) ++ ".new(\x7b\n".toList ++ text ++ sp ++ "\x7d)".toList)
      (.new (path ++ [w]) es) := by
  obtain ⟨toks, hlex, hparse⟩ := h
  refine ⟨_, ?_, hparse.new path w⟩
  have hwords : ∀ v ∈ path ++ [w ++ ".new".toList], IsWord v := by
    intro v hv
    rcases List.mem_append.mp hv with hv | hv
    · exact hpath v (List.mem_append_left _ hv)
    · obtain rfl := List.mem_singleton.mp hv
      obtain ⟨-, hw⟩ := hpath w (by simp)
      have hnew : ∀ c ∈ ".new".toList, isWordChar c = true := by decide
      exact ⟨by simp, fun c hc => (List.mem_append.mp hc).elim (hw c) (hnew c)⟩
  have hinner := scans_lines .curly hlex (parsesEntries_balanced hparse) hsp
  have hscans := (scansWord_path hwords (by simp)).append (hinner.word.group .round) rfl
  unfold pathText at hscans ⊢
  simp only [List.flatMap_append, List.flatMap_singleton, List.append_assoc, List.cons_append,
    List.nil_append] at hscans ⊢
  exact hscans

theorem values_inline {texts : List (List Char)} {xs : List Expr}
    (h : List.Forall₂ Value texts xs) :
    ∃ toks, ScansWord (List.intercalate ", ".toList texts) toks ∧ ParsesElems toks xs := by
  induction h with
  | nil => exact ⟨[], scans_nil.word, parsesElems_nil⟩
  | @cons t e texts xs hfirst hrest ih =>
    obtain ⟨toks, hscans, hparses⟩ := hfirst
    cases hrest with
    | nil =>
      rw [List.intercalate_singleton]
      exact ⟨toks, hscans, .last hparses⟩
    | cons hsecond hrest =>
      obtain ⟨more, hmore, hparses'⟩ := ih
      refine ⟨toks ++ .punct ',' :: more, ?_, .cons hparses hparses'⟩
      rw [List.intercalate_cons_cons, List.append_assoc]
      exact hscans.append_word (scans_comma.append_word hmore) rfl

def ValuePair (text : List Char) (e : Expr × Expr) : Prop :=
  ∃ k v, text = k ++ " => ".toList ++ v ∧ Value k e.1 ∧ Value v e.2

theorem entries_inline {texts : List (List Char)} {es : List (Expr × Expr)}
    (h : List.Forall₂ ValuePair texts es) :
    ∃ toks, ScansWord (List.intercalate ", ".toList texts) toks ∧ ParsesEntries toks es := by
  induction h with
  | nil => exact ⟨[], scans_nil.word, parsesEntries_nil⟩
  | @cons t e texts es hfirst hrest ih =>
    obtain ⟨k, v, rfl, ⟨ktoks, hk, hkparses⟩, vtoks, hv, hvparses⟩ := hfirst
    have hscans := (hk.append scans_arrow rfl).append_word hv
    cases hrest with
    | nil =>
      rw [List.intercalate_singleton]
      refine ⟨ktoks ++ .arrow :: vtoks, ?_, .last hkparses hvparses⟩
      simp only [List.append_assoc, List.singleton_append] at hscans ⊢
      exact hscans
    | cons hsecond hrest =>
      obtain ⟨more, hmore, hparses⟩ := ih
      refine ⟨ktoks ++ .arrow :: (vtoks ++ .punct ',' :: more), ?_, .cons hkparses hvparses hparses⟩
      have hall := hscans.append_word (scans_comma.append_word hmore) rfl
      rw [List.intercalate_cons_cons]
      simp only [List.append_assoc, List.singleton_append] at hall ⊢
      exact hall

theorem inline_set {texts : List (List Char)} {xs : List Expr} (h : List.Forall₂ Value texts xs) :
    ClosedValue ("Set.new([".toList ++ List.intercalate ", ".toList texts ++ "])".toList)
      (.set xs) := by
  obtain ⟨toks, hscans, hparses⟩ := values_inline h
  refine ⟨_, ?_, hparses.set⟩
  have hword : ScansWord "Set.new".toList [.word "Set.new".toList] := scansWord_word (by decide)
  have hset := hword.append ((hscans.group .square).word.group .round) rfl
  simp only [List.append_assoc, List.cons_append, List.nil_append] at hset ⊢
  exact hset

theorem inline_hash {texts : List (List Char)} {es : List (Expr × Expr)}
    (h : List.Forall₂ ValuePair texts es) :
    ClosedValue ("\x7b".toList ++ List.intercalate ", ".toList texts ++ "\x7d".toList)
      (.hash es) := by
  obtain ⟨toks, hscans, hparses⟩ := entries_inline h
  exact ⟨_, hscans.group .curly, hparses.hash⟩

end Values

section Statements

/-- What may stand after the statements of a body. -/
def Ending (rest : List Token) : Prop := rest = [] ∨ ∃ ts, rest = .word "end".toList :: ts

/-- Read as the statement, whatever follows its line. -/
structure ParsesStatement (toks : List Token) (s : Statement) : Prop where
  starts : ∃ w ts, toks = .word w :: ts ∧ w ≠ "end".toList
  parses : ∀ n rest, toks.length ≤ n → parseStatement n (toks ++ rest) = some (s, rest)

/-- Read as the statements of a body. -/
def ParsesStatements (toks : List Token) (ss : List Statement) : Prop :=
  ∀ n rest, toks.length < n → Ending rest → parseStatements n (toks ++ rest) = some (ss, rest)

def keywords : List (List Char) :=
  ["require".toList, "module".toList, "class".toList, "end".toList]

theorem parsesStatement_require (delim : Char) (path : List Char) :
    ParsesStatement [.word "require".toList, .string delim path, newline] (.require path) := by
  refine ⟨⟨_, _, rfl, by decide⟩, ?_⟩
  rintro (_ | n) rest hn
  · cases hn
  · rfl

theorem parseStatement_simple {w : List Char} (hw : w ∉ keywords) (n : ℕ) (ts : List Token) :
    parseStatement (n + 1) (.word w :: ts) = parseSimple w ts := by
  simp only [keywords, List.mem_cons, not_or] at hw
  unfold parseStatement
  rw [if_neg hw.1, if_neg hw.2.1, if_neg hw.2.2.1]

theorem ne_end_of_not_keyword {w : List Char} (hw : w ∉ keywords) : w ≠ "end".toList := by
  simp only [keywords, List.mem_cons, not_or] at hw
  exact hw.2.2.2.1

theorem parsesStatement_assign {name : List Char} (hname : name ∉ keywords) {toks : List Token}
    {e : Expr} (h : Parses toks e) :
    ParsesStatement (.word name :: .punct '=' :: (toks ++ [newline])) (.assign name e) := by
  refine ⟨⟨_, _, rfl, ne_end_of_not_keyword hname⟩, ?_⟩
  rintro (_ | n) rest hn
  · cases hn
  have hexpr := h (toks ++ newline :: rest).length (newline :: rest)
    (by rw [List.length_append]; omega) (ends_punct (by decide) _)
  simp only [List.cons_append, List.append_assoc, List.nil_append]
  rw [parseStatement_simple hname]
  change parseAssignment name (toks ++ newline :: rest) = _
  unfold parseAssignment
  rw [hexpr]
  rfl

theorem parsesStatement_assignFrozen {name : List Char} (hname : name ∉ keywords)
    {toks : List Token} {e : Expr} (h : Parses toks e) :
    ParsesStatement (.word name :: .punct '=' :: (toks ++ [.word ".freeze".toList, newline]))
      (.assignFrozen name e) := by
  refine ⟨⟨_, _, rfl, ne_end_of_not_keyword hname⟩, ?_⟩
  rintro (_ | n) rest hn
  · cases hn
  have hexpr := h (toks ++ .word ".freeze".toList :: newline :: rest).length
    (.word ".freeze".toList :: newline :: rest) (by rw [List.length_append]; omega)
    (by simp [Ends])
  simp only [List.cons_append, List.append_assoc, List.nil_append]
  rw [parseStatement_simple hname]
  change parseAssignment name (toks ++ .word ".freeze".toList :: newline :: rest) = _
  unfold parseAssignment
  rw [hexpr]
  rfl

theorem parsesStatement_call {method : List Char} (hmethod : method ∉ keywords)
    (argument : List Char) :
    ParsesStatement [.word method, .punct '(', .word argument, .punct ')', newline]
      (.call method argument) := by
  refine ⟨⟨_, _, rfl, ne_end_of_not_keyword hmethod⟩, ?_⟩
  rintro (_ | n) rest hn
  · cases hn
  · exact parseStatement_simple hmethod n _

theorem closeBody_end {body : List Statement} (rest : List Token) :
    closeBody (some (body, .word "end".toList :: newline :: rest)) = some (body, rest) := rfl

theorem parsesStatement_module {name : List Char} (hname : isConstantName name = true)
    {toks : List Token} {body : List Statement} (h : ParsesStatements toks body) :
    ParsesStatement
      (.word "module".toList :: .word name :: newline :: (toks ++ [.word "end".toList, newline]))
      (.moduleDef name body) := by
  refine ⟨⟨_, _, rfl, by decide⟩, ?_⟩
  rintro (_ | n) rest hn
  · cases hn
  simp only [List.length_append, List.length_cons, List.length_nil] at hn
  simp only [List.cons_append, List.append_assoc, List.nil_append]
  have hhead : ∀ ts, moduleHead (.word name :: newline :: ts) = some (name, ts) := by
    intro ts
    change (if isConstantName name = true then _ else _) = _
    rw [if_pos hname]
    rfl
  unfold parseStatement
  rw [if_neg (by decide), if_pos rfl, hhead]
  dsimp only [Option.bind_some]
  rw [h n _ (by omega) (.inr ⟨_, rfl⟩), closeBody_end]
  rfl

theorem parsesStatement_class {name : List Char} (hname : isConstantName name = true)
    (v : List Char) (path : List (List Char)) {toks : List Token} {body : List Statement}
    (h : ParsesStatements toks body) :
    ParsesStatement (.word "class".toList :: .word name :: .punct '<' ::
      (pathTokens (v :: path) ++ newline :: (toks ++ [.word "end".toList, newline])))
      (.classDef name (v :: path) body) := by
  refine ⟨⟨_, _, rfl, by decide⟩, ?_⟩
  rintro (_ | n) rest hn
  · cases hn
  simp only [List.length_append, List.length_cons, List.length_nil] at hn
  simp only [List.cons_append, List.append_assoc, List.nil_append]
  have hhead : ∀ ts, classHead (.word name :: .punct '<' :: (pathTokens (v :: path) ++
      newline :: ts)) = some ((name, v :: path), ts) := by
    intro ts
    change (if isConstantName name = true then _ else _) = _
    rw [if_pos hname]
    change endLine (Option.map _ (parsePath (.word v :: (pathTokens path ++ newline :: ts)))) = _
    rw [parsePath_tokens (by simp [newline])]
    rfl
  unfold parseStatement
  rw [if_neg (by decide), if_neg (by decide), if_pos rfl, hhead]
  dsimp only [Option.bind_some]
  rw [h n _ (by omega) (.inr ⟨_, rfl⟩), closeBody_end]
  rfl

theorem parsesStatements_nil : ParsesStatements [] [] := by
  rintro (_ | n) rest hn hrest
  · cases hn
  · rcases hrest with rfl | ⟨ts, rfl⟩ <;> rfl

theorem ParsesStatements.newline {toks : List Token} {ss : List Statement}
    (h : ParsesStatements toks ss) : ParsesStatements (RubyFiles.newline :: toks) ss := by
  rintro (_ | n) rest hn hrest
  · cases hn
  · exact h n rest (by simpa using hn) hrest

theorem ParsesStatement.cons {toks more : List Token} {s : Statement} {ss : List Statement}
    (h : ParsesStatement toks s) (hmore : ParsesStatements more ss) :
    ParsesStatements (toks ++ more) (s :: ss) := by
  rintro (_ | n) rest hn hrest
  · cases hn
  obtain ⟨⟨w, ts, htoks, hend⟩, hparses⟩ := h
  have hlen : 0 < toks.length := by
    rw [htoks]
    exact Nat.succ_pos _
  rw [List.length_append] at hn
  have hfirst := hparses n (more ++ rest) (by omega)
  rw [List.append_assoc]
  rw [htoks, List.cons_append] at hfirst ⊢
  have htok : Token.word w ≠ .word "end".toList := fun heq => hend (Token.word.inj heq)
  unfold parseStatements
  rw [if_neg htok, hfirst]
  dsimp only [Option.bind_some]
  rw [hmore n rest (by omega) hrest]
  rfl

end Statements

section Files

variable {text sp : List Char}

/-- The lines are the statement. -/
def Writes (text : List Char) (s : Statement) : Prop :=
  ∃ toks, Lines text toks ∧ ParsesStatement toks s

/-- The lines are the statements of a body or of a file. -/
def WritesAll (text : List Char) (ss : List Statement) : Prop :=
  ∃ toks, Lines text toks ∧ ParsesStatements toks ss

/-- The lines are these statements, and others may follow. -/
def Prints (text : List Char) (ss : List Statement) : Prop :=
  ∀ rest ss', WritesAll rest ss' → WritesAll (text ++ rest) (ss ++ ss')

/-- No statement stands in these lines. -/
def Blank (text : List Char) : Prop := ∃ k, Lines text (List.replicate k newline)

theorem lines_nil : Lines [] [] := scans_nil.lines

theorem ScansWord.line {toks : List Token} (h : ScansWord text toks) :
    Lines (text ++ ['\n']) (toks ++ [newline]) := by
  intro rest
  have hstops : Stops ('\n' :: rest) := by
    intro c hc
    obtain rfl := Option.some.inj hc
    decide
  rw [List.append_assoc, List.singleton_append, h 0 _ hstops, lexFile_newline]
  exact map_append_append toks [newline] _

theorem writesAll_nil : WritesAll [] [] := ⟨[], lines_nil, parsesStatements_nil⟩

theorem prints_nil : Prints [] [] := fun _ _ h => h

theorem Prints.append {a b : List Char} {as bs : List Statement} (ha : Prints a as)
    (hb : Prints b bs) : Prints (a ++ b) (as ++ bs) := by
  intro rest ss h
  rw [List.append_assoc, List.append_assoc]
  exact ha _ _ (hb _ _ h)

theorem Prints.all {ss : List Statement} (h : Prints text ss) : WritesAll text ss := by
  have hend := h [] [] writesAll_nil
  rwa [List.append_nil, List.append_nil] at hend

theorem Writes.prints {s : Statement} (h : Writes text s) : Prints text [s] := by
  intro rest ss hrest
  obtain ⟨toks, hlines, hparses⟩ := h
  obtain ⟨more, hmore, hall⟩ := hrest
  exact ⟨toks ++ more, hlines.append hmore, hparses.cons hall⟩

theorem blank_newline : Blank ['\n'] := by
  refine ⟨1, fun rest => ?_⟩
  exact lexFile_newline rest

theorem Blank.append {a b : List Char} (ha : Blank a) (hb : Blank b) : Blank (a ++ b) := by
  obtain ⟨j, ha⟩ := ha
  obtain ⟨k, hb⟩ := hb
  refine ⟨j + k, ?_⟩
  rw [← List.replicate_append_replicate]
  exact ha.append hb

theorem blank_indent (hsp : ∀ c ∈ sp, c = ' ') : Blank sp := ⟨0, (scans_blanks hsp).lines⟩

theorem blank_comment {line : List Char} (h : '\n' ∉ line) : Blank ('#' :: (line ++ ['\n'])) := by
  refine ⟨1, fun rest => ?_⟩
  have hline : ∀ c ∈ line, decide (c ≠ '\n') = true := by
    intro c hc
    rw [decide_eq_true_eq]
    rintro rfl
    exact h hc
  have hdrop : (line ++ ['\n'] ++ rest).dropWhile (fun c => decide (c ≠ '\n')) = '\n' :: rest := by
    rw [List.append_assoc, List.dropWhile_append_of_pos hline]
    exact List.dropWhile_cons_of_neg (by simp)
  rw [List.cons_append, lexFile_comment, hdrop]
  exact lexFile_newline rest

theorem Blank.prints (h : Blank text) : Prints text [] := by
  intro rest ss hrest
  obtain ⟨k, hlines⟩ := h
  obtain ⟨toks, hmore, hall⟩ := hrest
  refine ⟨List.replicate k newline ++ toks, hlines.append hmore, ?_⟩
  clear hlines
  induction k with
  | zero => exact hall
  | succ k ih => exact ih.newline

theorem WritesAll.read {ss : List Statement} (h : WritesAll text ss)
    (hnamed : statementsNamed ss = true) : readFile text = some ss := by
  obtain ⟨toks, hlines, hparses⟩ := h
  have htoks : lexFile 0 text = some toks := by
    have hend := hlines []
    rw [List.append_nil, lexFile] at hend
    rw [hend, Option.map_some, List.append_nil]
  have hread := hparses (toks.length + 1) [] (Nat.lt_succ_self _) (.inl rfl)
  rw [List.append_nil] at hread
  have hparse : parseFile text = some ss := by
    unfold parseFile
    rw [htoks]
    dsimp only
    rw [hread]
  unfold readFile
  rw [hparse, Option.filter_some, if_pos hnamed]

theorem require_writes {path : List Char} (h : Inside (Char.ofNat 39) path) :
    Writes ("require '".toList ++ path ++ "'\n".toList) (.require path) := by
  have hword : ScansWord "require".toList [.word "require".toList] := scansWord_word (by decide)
  have hscans := (hword.append scans_blank rfl).append (scans_quoted h)
  refine ⟨_, ?_, parsesStatement_require (Char.ofNat 39) path⟩
  have hline := hscans.word.line
  simp only [List.append_assoc, List.cons_append, List.nil_append] at hline ⊢
  exact hline

theorem scansWord_indent {w : List Char} (hsp : ∀ c ∈ sp, c = ' ') (hw : IsWord w) :
    ScansWord (sp ++ w) [.word w] := (scans_blanks hsp).append_word (scansWord_word hw)

theorem assign_writes (hsp : ∀ c ∈ sp, c = ' ') {name : List Char} (hword : IsWord name)
    (hname : name ∉ keywords) {value : List Char} {e : Expr} (h : Value value e) :
    Writes (sp ++ name ++ " = ".toList ++ value ++ ['\n']) (.assign name e) := by
  obtain ⟨toks, hscans, hparses⟩ := h
  refine ⟨_, ?_, parsesStatement_assign hname hparses⟩
  have hline := (((scansWord_indent hsp hword).append scans_gets rfl).append_word hscans).line
  simp only [List.append_assoc, List.cons_append, List.nil_append] at hline ⊢
  exact hline

theorem assignFrozen_writes (hsp : ∀ c ∈ sp, c = ' ') {name : List Char} (hword : IsWord name)
    (hname : name ∉ keywords) {value : List Char} {e : Expr} (h : ClosedValue value e) :
    Writes (sp ++ name ++ " = ".toList ++ value ++ ".freeze\n".toList) (.assignFrozen name e) := by
  obtain ⟨toks, hscans, hparses⟩ := h
  refine ⟨_, ?_, parsesStatement_assignFrozen hname hparses⟩
  have hfreeze : ScansWord ".freeze".toList [.word ".freeze".toList] := scansWord_word (by decide)
  have hvalue := ((scansWord_indent hsp hword).append scans_gets rfl).append hscans
  have hline := (hvalue.append_word hfreeze).line
  simp only [List.append_assoc, List.cons_append, List.nil_append] at hline ⊢
  exact hline

theorem call_writes (hsp : ∀ c ∈ sp, c = ' ') {method argument : List Char}
    (hmethod : IsWord method) (hname : method ∉ keywords) (hargument : IsWord argument) :
    Writes (sp ++ method ++ "(".toList ++ argument ++ ")\n".toList) (.call method argument) := by
  refine ⟨_, ?_, parsesStatement_call hname argument⟩
  have hgroup := (scansWord_word hargument).group .round
  have hline := ((scansWord_indent hsp hmethod).append hgroup rfl).word.line
  simp only [List.append_assoc, List.cons_append, List.nil_append] at hline ⊢
  exact hline

theorem module_writes (hsp : ∀ c ∈ sp, c = ' ') {name : List Char}
    (hname : isConstantName name = true) {body : List Char} {ss : List Statement}
    (h : Prints body ss) :
    Writes (sp ++ "module ".toList ++ name ++ ['\n'] ++ body ++ sp ++ "end\n".toList)
      (.moduleDef name ss) := by
  obtain ⟨toks, hlines, hparses⟩ := h.all
  refine ⟨_, ?_, parsesStatement_module hname hparses⟩
  have hword : IsWord "module".toList := by decide
  have hhead := ((scansWord_indent hsp hword).append scans_blank rfl).append_word
    (scansWord_word (isWord_constant hname))
  have hend : IsWord "end".toList := by decide
  have hall := (hhead.line.append hlines).append (scansWord_indent hsp hend).line
  simp only [List.append_assoc, List.cons_append, List.nil_append] at hall ⊢
  exact hall

theorem class_writes (hsp : ∀ c ∈ sp, c = ' ') {name : List Char}
    (hname : isConstantName name = true) {v : List Char} {path : List (List Char)}
    (hpath : ∀ w ∈ v :: path, IsWord w) {body : List Char} {ss : List Statement}
    (h : Prints body ss) :
    Writes (sp ++ "class ".toList ++ name ++ " < ".toList ++ pathText (v :: path) ++ ['\n'] ++
      body ++ sp ++ "end\n".toList) (.classDef name (v :: path) ss) := by
  obtain ⟨toks, hlines, hparses⟩ := h.all
  refine ⟨_, ?_, parsesStatement_class hname v path hparses⟩
  have hword : IsWord "class".toList := by decide
  have hless : Scans " < ".toList [.punct '<'] := by
    have hone : Scans ['<'] [.punct '<'] := scans_token (by decide) (fun _ => rfl) fun _ => rfl
    exact (scans_blank.append hone).append scans_blank
  have hfirst := ((scansWord_indent hsp hword).append scans_blank rfl).append_word
    (scansWord_word (isWord_constant hname))
  have hhead := (hfirst.append hless rfl).append_word (scansWord_path hpath (by simp))
  have hend : IsWord "end".toList := by decide
  have hall := (hhead.line.append hlines).append (scansWord_indent hsp hend).line
  simp only [List.append_assoc, List.cons_append, List.nil_append] at hall ⊢
  exact hall

end Files

end Sparsam.RubyFiles
