import Sparsam.CheckedStrings
import Sparsam.ThriftLexer

set_option autoImplicit false

/-!
# Doc texts in the scanner

What the scanner does with a comment that may be a doc text, every access to
memory checked, and for which comments it ends without a fault.
-/
namespace Sparsam.DocText
open CheckedStrings DocComments MaximalMunch Pattern

inductive PARSE_MODE where
  | INCLUDES
  | PROGRAM
deriving DecidableEq, Repr

inductive PROGDOCTEXT_STATUS where
  | INVALID
  | STILL_CANDIDATE
  | ALREADY_PROCESSED
  | ABSOLUTELY_SURE
  | NO_PROGRAM_DOCTEXT
deriving DecidableEq, Repr

/-- A C string in `size` bytes of allocated memory. -/
structure CString where
  text : List Char
  size : ℕ
  ends : text.length < size
  nul : Char.ofNat 0 ∉ text

namespace CString

theorem nul_cString (bytes : List Char) : Char.ofNat 0 ∉ cString bytes := by
  intro h
  simpa using List.mem_takeWhile_imp h

def strdup (bytes : List Char) : CString where
  text := cString bytes
  size := (cString bytes).length + 1
  ends := Nat.lt_succ_self _
  nul := nul_cString bytes

def put (s : CString) (i : ℕ) (c : Char) (hc : c ≠ Char.ofNat 0) : Checked CString :=
  if i < s.text.length then
    .ok { s with
      text := s.text.set i c
      ends := by rw [List.length_set]; exact s.ends
      nul := fun h => (List.mem_or_eq_of_mem_set h).elim s.nul fun h => hc h.symm }
  else .error .overflow

/-- `s[i]` becomes the NUL. -/
def cut (s : CString) (i : ℕ) : Checked CString :=
  if i < s.text.length then
    .ok { s with
      text := s.text.take i
      ends := (List.length_take_le' i s.text).trans_lt s.ends
      nul := fun h => s.nul (List.mem_of_mem_take h) }
  else .error .overflow

def strcpy (s : CString) (bytes : List Char) : Checked CString :=
  if h : (cString bytes).length < s.size then
    .ok { s with text := cString bytes, ends := h, nul := nul_cString bytes }
  else .error .overflow

end CString

def deref (s : Option CString) : Checked CString :=
  match s with
  | some s => .ok s
  | none => .error .nullPointer

def assert (p : Prop) [Decidable p] : Checked Unit := if p then .ok () else .error .assertion

def white (c : Char) : Bool := c == ' ' || c == '\t'

def nonwhite (c : Char) : Bool := !white c

/-- The loop that separates a text into lines; a last line of blanks only is dropped. -/
def separate (docstring : List Char) (last : ℕ) : Checked (List (List Char)) :=
  match _h : find (· == '\n') docstring last with
  | none =>
    match find nonwhite docstring last with
    | none => pure []
    | some _ => do
      let line ← substr docstring last none
      pure [line]
  | some pos => do
    let line ← substr docstring last (some (pos - last))
    let lines ← separate docstring (pos + 1)
    pure (line :: lines)
termination_by docstring.length + 1 - last
decreasing_by
  have hpos := find_bounds _h
  omega

structure Prefix where
  havePrefix : Bool
  prefixLen : ℕ
  lines : List (List Char)
deriving DecidableEq, Repr

def Prefix.cons (line : List Char) (p : Prefix) : Prefix := { p with lines := line :: p.lines }

/-- The loop that looks for a common prefix of blanks and a star. It empties lines of blanks and
    stops where the pattern is broken. -/
def findPrefix (foundPrefix : Bool) (prefixLen : ℕ) : List (List Char) → Checked Prefix
  | [] => pure ⟨true, prefixLen, []⟩
  | line :: lines =>
    if line = [] then Prefix.cons line <$> findPrefix foundPrefix prefixLen lines
    else
      match find nonwhite line 0 with
      | none => Prefix.cons [] <$> findPrefix foundPrefix prefixLen lines
      | some pos => do
        let c ← charAt line pos
        if foundPrefix = false then
          if c = '*' then Prefix.cons line <$> findPrefix true pos lines
          else pure ⟨false, prefixLen, line :: lines⟩
        else if c = '*' ∧ pos = prefixLen then
          Prefix.cons line <$> findPrefix foundPrefix prefixLen lines
        else pure ⟨false, prefixLen, line :: lines⟩

def leastIndent (prefixLen : Option ℕ) : List (List Char) → Option ℕ
  | [] => prefixLen
  | line :: lines =>
    match find nonwhite line 0 with
    | none => leastIndent prefixLen lines
    | some pos =>
      match prefixLen with
      | none => leastIndent (some pos) lines
      | some n => leastIndent (some (if pos < n then pos else n)) lines

def trimTrailing (line : List Char) : Checked (List Char) :=
  match findLast nonwhite line with
  | none => pure line
  | some pos => if pos = line.length - 1 then pure line else erase line (pos + 1) none

/-- If the prefix survived, it is deleted from every line, with the star. -/
def dropPrefix (found : Prefix) : Checked (List (List Char)) :=
  if found.havePrefix then found.lines.mapM fun line => erase line 0 (some (found.prefixLen + 1))
  else pure found.lines

def dropIndent (lines : List (List Char)) : Checked (List (List Char)) :=
  match leastIndent none lines with
  | none => pure lines
  | some prefixLen => lines.mapM fun line => erase line 0 (some prefixLen)

def dropFirst (lines : List (List Char)) : Checked (List (List Char)) := do
  let first ← front lines
  if first = [] then afterBegin lines else pure lines

/-- The text goes back where it came from if it fits, else into memory of its own. -/
def copyBack (doctext : CString) (docstring : List Char) : Checked CString :=
  if docstring.length ≤ doctext.text.length then doctext.strcpy docstring
  else pure (.strdup docstring)

def clean_up_doctext (doctext : CString) : Checked (Option CString) := do
  let lines ← separate (doctext.text.filter (· ≠ '\r')) 0
  if lines = [] then return none
  let first ← front lines
  let first ← erase first 0 (find nonwhite first 0)
  let lines ← afterBegin lines
  let found ← findPrefix false 0 lines
  let lines ← dropPrefix found
  let lines ← dropIndent lines
  let lines ← (first :: lines).mapM trimTrailing
  let lines ← dropFirst lines
  some <$> copyBack doctext (lines.flatMap (· ++ ['\n']))

structure Globals where
  g_doctext : Option CString
  g_doctext_lineno : ℕ
  g_program_doctext_candidate : Option CString
  g_program_doctext_lineno : ℕ
  g_program_doctext_status : PROGDOCTEXT_STATUS
  docs : List (List Char) -- the texts given to `set_doc`

def clear_doctext (g : Globals) : Globals := { g with g_doctext := none }

/-- The first text of a file may become the one of the program. -/
def setCandidate (g : Globals) : Checked Globals :=
  if g.g_program_doctext_candidate.isNone ∧ g.g_program_doctext_status = .INVALID then do
    let doctext ← deref g.g_doctext
    return { g with
      g_program_doctext_candidate := some (.strdup doctext.text)
      g_program_doctext_lineno := g.g_doctext_lineno
      g_program_doctext_status := .STILL_CANDIDATE }
  else pure g

/-- The action of the scanner for a doc text. -/
def doctextAction (g_parse_mode : PARSE_MODE) (yytext : List Char) (yylineno : ℕ) (g : Globals) :
    Checked Globals :=
  match g_parse_mode with
  | .INCLUDES => pure g
  | .PROGRAM => do
    let g := clear_doctext g
    let doctext := CString.strdup (yytext.drop 3)
    assert (2 ≤ doctext.text.length)
    let doctext ← doctext.put (doctext.text.length - 2) ' ' (by decide)
    let doctext ← doctext.cut (doctext.text.length - 1)
    let doctext ← clean_up_doctext doctext
    setCandidate { g with g_doctext := doctext, g_doctext_lineno := yylineno }

/-- What the parser and the compiler do with the texts later. -/
inductive Use where
  | CaptureDocText
  | DestroyDocText
  | Program
  | declare_valid_program_doctext
  | reset_program_doctext_info
deriving DecidableEq, Repr

def set_doc (doc : Option CString) (g : Globals) : Checked Globals := do
  let doc ← deref doc
  return { g with docs := g.docs ++ [doc.text] }

/-- A captured text goes to the definition, field or function that is parsed next. -/
def Use.perform (g_parse_mode : PARSE_MODE) (g : Globals) : Use → Checked Globals
  | .CaptureDocText =>
    match g_parse_mode with
    | .INCLUDES => pure g
    | .PROGRAM =>
      if g.g_doctext.isSome then set_doc g.g_doctext { g with g_doctext := none }
      else pure { g with g_doctext := none }
  | .DestroyDocText =>
    match g_parse_mode with
    | .INCLUDES => pure g
    | .PROGRAM => pure (clear_doctext g)
  | .Program =>
    clear_doctext <$>
      if g.g_program_doctext_candidate.isSome ∧ g.g_program_doctext_status ≠ .ALREADY_PROCESSED then
        set_doc g.g_program_doctext_candidate
          { g with g_program_doctext_status := .ALREADY_PROCESSED }
      else pure g
  | .declare_valid_program_doctext =>
    if g.g_program_doctext_candidate.isSome ∧ g.g_program_doctext_status = .STILL_CANDIDATE then
      pure { g with g_program_doctext_status := .ABSOLUTELY_SURE }
    else pure { g with g_program_doctext_status := .NO_PROGRAM_DOCTEXT }
  | .reset_program_doctext_info =>
    pure { g with
      g_program_doctext_candidate := none
      g_program_doctext_lineno := 0
      g_program_doctext_status := .INVALID }

theorem separate_returns {docstring : List Char} {last : ℕ} (hlast : last ≤ docstring.length) :
    Returns (separate docstring last) fun lines =>
      lines = [] ↔ ∀ c ∈ docstring.drop last, white c = true := by
  fun_induction separate docstring last with
  | case1 last hnewline hwhite =>
    refine Returns.pure (iff_of_true rfl fun c hc => ?_)
    simpa [nonwhite] using find_eq_none.mp hwhite c hc
  | case2 last hnewline pos hwhite =>
    refine (substr_returns hlast none).bind fun line _ => Returns.pure ?_
    obtain ⟨c, hc, hnonwhite⟩ := find_mem hwhite
    refine iff_of_false (by simp) fun h => ?_
    simp [nonwhite, h c hc] at hnonwhite
  | case3 last pos hnewline ih =>
    have hpos := find_bounds hnewline
    obtain ⟨c, hc, hnl⟩ := find_mem hnewline
    refine (substr_returns hlast _).bind fun line _ => (ih (by omega)).bind fun lines _ => ?_
    refine Returns.pure (iff_of_false (by simp) fun h => ?_)
    rw [beq_iff_eq.mp hnl] at hc
    exact absurd (h _ hc) (by decide)

theorem findPrefix_returns (foundPrefix : Bool) (prefixLen : ℕ) (lines : List (List Char)) :
    Returns (findPrefix foundPrefix prefixLen lines) fun _ => True := by
  induction lines generalizing foundPrefix prefixLen with
  | nil => exact Returns.pure trivial
  | cons line lines ih =>
    rw [findPrefix]
    split
    · exact (ih _ _).map fun _ _ => trivial
    split
    · exact (ih _ _).map fun _ _ => trivial
    rename_i pos hpos
    refine (charAt_returns (find_bounds hpos).2).bind fun c _ => ?_
    split
    · split
      · exact (ih _ _).map fun _ _ => trivial
      · exact Returns.pure trivial
    · split
      · exact (ih _ _).map fun _ _ => trivial
      · exact Returns.pure trivial

theorem trimTrailing_returns (line : List Char) : Returns (trimTrailing line) fun _ => True := by
  unfold trimTrailing
  split
  · exact Returns.pure trivial
  · rename_i pos hpos
    have hbound := findLast_bound hpos
    split
    · exact Returns.pure trivial
    · exact erase_returns (by omega) none

theorem eraseAll_returns (lines : List (List Char)) (n : ℕ) :
    Returns (lines.mapM fun line => erase line 0 (some n)) fun _ => True :=
  (Returns.mapM fun _ _ => erase_returns (Nat.zero_le _) _).imp fun _ _ => trivial

theorem dropPrefix_returns (found : Prefix) : Returns (dropPrefix found) fun _ => True := by
  unfold dropPrefix
  split
  · exact eraseAll_returns _ _
  · exact Returns.pure trivial

theorem dropIndent_returns (lines : List (List Char)) :
    Returns (dropIndent lines) fun _ => True := by
  unfold dropIndent
  split
  · exact Returns.pure trivial
  · exact eraseAll_returns _ _

theorem front_returns {α : Type} {l : List α} (h : l ≠ []) : Returns (front l) fun _ => True := by
  cases l with
  | nil => exact absurd rfl h
  | cons a l => exact ⟨a, rfl, trivial⟩

theorem afterBegin_returns {α : Type} {l : List α} (h : l ≠ []) :
    Returns (afterBegin l) fun _ => True := by
  cases l with
  | nil => exact absurd rfl h
  | cons a l => exact ⟨l, rfl, trivial⟩

theorem dropFirst_returns {lines : List (List Char)} (h : lines ≠ []) :
    Returns (dropFirst lines) fun _ => True := by
  refine (front_returns h).bind fun first _ => ?_
  split
  · exact afterBegin_returns h
  · exact Returns.pure trivial

theorem copyBack_returns (doctext : CString) (docstring : List Char) :
    Returns (copyBack doctext docstring) fun _ => True := by
  unfold copyBack
  split
  · rename_i hlength
    have hlt : (cString docstring).length < doctext.size :=
      ((List.takeWhile_prefix _).length_le.trans hlength).trans_lt doctext.ends
    rw [CString.strcpy, dif_pos hlt]
    exact ⟨_, rfl, trivial⟩
  · exact Returns.pure trivial

theorem clean_up_doctext_returns (doctext : CString) :
    Returns (clean_up_doctext doctext) fun result =>
      result = none ↔ ∀ c ∈ doctext.text.filter (· ≠ '\r'), white c = true := by
  refine (separate_returns (Nat.zero_le _)).bind fun lines hlines => ?_
  rw [List.drop_zero] at hlines
  rw [← hlines]
  split
  · rename_i hnil
    exact Returns.pure (iff_of_true rfl hnil)
  rename_i hne
  refine (front_returns hne).bind fun first _ => ?_
  refine (erase_returns (Nat.zero_le _) _).bind fun first _ => ?_
  refine (afterBegin_returns hne).bind fun rest _ => ?_
  refine (findPrefix_returns false 0 rest).bind fun found _ => ?_
  refine (dropPrefix_returns found).bind fun rest _ => ?_
  refine (dropIndent_returns rest).bind fun rest _ => ?_
  refine (Returns.mapM fun line _ => trimTrailing_returns line).bind fun trimmed htrimmed => ?_
  have htrimmed : trimmed ≠ [] := by
    rintro rfl
    cases htrimmed
  refine (dropFirst_returns htrimmed).bind fun trimmed _ => ?_
  exact (copyBack_returns _ _).map fun _ _ => iff_of_false (by simp) hne

/-- The text that is cleaned up, without its last two characters: only blanks on one line. -/
def OnlyBlanks (yytext : List Char) : Prop :=
  ∀ c ∈ (cString (yytext.drop 3)).dropLast.dropLast, c = ' ' ∨ c = '\t' ∨ c = '\r'

theorem doctext_length {yytext : List Char} (h : yytext ∈ ThriftLexer.doctext.language) :
    ∃ body, yytext = ['/', '*', '*'] ++ (body ++ ['*', '/']) := by
  unfold ThriftLexer.doctext ThriftLexer.commentEnd at h
  rw [language, Language.mem_mul] at h
  obtain ⟨u, hu, v, hv, rfl⟩ := h
  rw [language, Language.mem_mul] at hv
  obtain ⟨v, -, x, hx, rfl⟩ := hv
  rw [language, Language.mem_mul] at hx
  obtain ⟨y, -, z, hz, rfl⟩ := hx
  rw [mem_lit] at hu hz
  exact ⟨v ++ y, by rw [hu, hz, List.append_assoc]⟩

theorem cString_length {a b : Char} {text : List Char} :
    2 ≤ (cString (a :: b :: text)).length ↔ ∀ c ∈ [a, b], c ≠ Char.ofNat 0 := by
  unfold cString
  rw [List.takeWhile_cons, List.takeWhile_cons]
  by_cases ha : a = Char.ofNat 0
  · simp [ha]
  · by_cases hb : b = Char.ofNat 0
    · simp [ha, hb]
    · simp [ha, hb]

theorem exists_append_pair {text : List Char} (h : 2 ≤ text.length) :
    ∃ body a b, text = body ++ [a, b] := by
  refine ⟨text.take (text.length - 2), text[text.length - 2], text[text.length - 1], ?_⟩
  have hdrop : text.drop (text.length - 2) = [text[text.length - 2], text[text.length - 1]] := by
    apply List.ext_getElem
    · simp; omega
    · intro i h₁ h₂
      have hi : i = 0 ∨ i = 1 := by simp at h₂; omega
      rcases hi with rfl | rfl
      · simp
      · simp only [List.getElem_drop, List.getElem_cons_succ, List.getElem_cons_zero]
        congr 1
        omega
  rw [← hdrop, List.take_append_drop]

theorem shortened (s : CString) (h : 2 ≤ s.text.length) :
    Returns (s.put (s.text.length - 2) ' ' (by decide)) fun s' =>
      Returns (s'.cut (s'.text.length - 1)) fun s'' =>
        s''.text = s.text.dropLast.dropLast ++ [' '] := by
  obtain ⟨body, a, b, htext⟩ := exists_append_pair h
  have hlength : s.text.length = body.length + 2 := by rw [htext]; simp
  have hset : s.text.set (s.text.length - 2) ' ' = body ++ [' ', b] := by
    rw [hlength, htext, List.set_append_right _ _ (by omega)]
    simp
  have hput : s.text.length - 2 < s.text.length := by omega
  unfold CString.put
  rw [if_pos hput]
  refine ⟨_, rfl, ?_⟩
  unfold CString.cut
  dsimp only
  rw [if_pos (by rw [List.length_set]; omega)]
  refine ⟨_, rfl, ?_⟩
  dsimp only
  have htake : (body ++ [' ', b]).take (body.length + 1) = body ++ [' '] := by
    rw [List.take_length_add_append]
    rfl
  rw [hset, htext]
  simp [htake]

theorem onlyBlanks_iff {yytext : List Char} :
    OnlyBlanks yytext ↔ ∀ c ∈ ((cString (yytext.drop 3)).dropLast.dropLast ++ [' ']).filter
      (· ≠ '\r'), white c = true := by
  unfold OnlyBlanks
  simp only [List.mem_filter, List.mem_append, List.mem_singleton, decide_eq_true_eq, white,
    Bool.or_eq_true, beq_iff_eq, and_imp, or_imp, forall_and, forall_eq]
  constructor
  · intro h
    refine ⟨fun c hc hne => ?_, by simp⟩
    rcases h c hc with h | h | h
    · exact .inl h
    · exact .inr h
    · exact absurd h hne
  · rintro ⟨h, -⟩ c hc
    by_cases hcr : c = '\r'
    · exact .inr (.inr hcr)
    · exact (h c hc hcr).imp_right .inl

theorem doctextAction_eq {yytext : List Char} {yylineno : ℕ} {g : Globals}
    (h : 2 ≤ (cString (yytext.drop 3)).length) :
    ∃ doctext, (doctext = none ↔ OnlyBlanks yytext) ∧
      doctextAction .PROGRAM yytext yylineno g =
        setCandidate
          { clear_doctext g with g_doctext := doctext, g_doctext_lineno := yylineno } := by
  obtain ⟨s, hs, hshort⟩ := shortened (.strdup (yytext.drop 3)) h
  obtain ⟨s', hs', htext⟩ := hshort
  obtain ⟨doctext, hdoctext, hnone⟩ := clean_up_doctext_returns s'
  rw [htext] at hnone
  refine ⟨doctext, hnone.trans onlyBlanks_iff.symm, ?_⟩
  have hassert : assert (2 ≤ (CString.strdup (yytext.drop 3)).text.length) = .ok () := if_pos h
  unfold doctextAction
  dsimp only
  rw [hassert]
  change (CString.put _ _ _ _ >>= _) = _
  rw [hs]
  change (CString.cut _ _ >>= _) = _
  rw [hs']
  change (clean_up_doctext _ >>= _) = _
  rw [hdoctext]
  rfl

theorem set_doc_returns {doc : Option CString} (h : doc.isSome = true) (g : Globals) :
    Returns (set_doc doc g) fun _ => True := by
  obtain ⟨s, rfl⟩ := Option.isSome_iff_exists.mp h
  exact ⟨_, rfl, trivial⟩

theorem use_returns (mode : PARSE_MODE) (g : Globals) (use : Use) :
    Returns (use.perform mode g) fun _ => True := by
  cases use with
  | CaptureDocText =>
    cases mode with
    | INCLUDES => exact Returns.pure trivial
    | PROGRAM =>
      unfold Use.perform
      dsimp only
      split
      · rename_i hsome
        exact set_doc_returns hsome _
      · exact Returns.pure trivial
  | DestroyDocText => cases mode <;> exact Returns.pure trivial
  | Program =>
    have hdoc : Returns (if g.g_program_doctext_candidate.isSome = true ∧
          g.g_program_doctext_status ≠ .ALREADY_PROCESSED then
        set_doc g.g_program_doctext_candidate
          { g with g_program_doctext_status := .ALREADY_PROCESSED }
      else pure g) fun _ => True := by
      split
      · rename_i hcandidate
        exact set_doc_returns hcandidate.1 _
      · exact Returns.pure trivial
    exact hdoc.map fun _ _ => trivial
  | declare_valid_program_doctext =>
    unfold Use.perform
    dsimp only
    split
    · exact Returns.pure trivial
    · exact Returns.pure trivial
  | reset_program_doctext_info => exact Returns.pure trivial

theorem setCandidate_returns_iff {g : Globals} :
    (∃ next, setCandidate g = .ok next) ↔
      (g.g_doctext ≠ none ∨ g.g_program_doctext_candidate ≠ none ∨
        g.g_program_doctext_status ≠ .INVALID) := by
  unfold setCandidate
  split
  · rename_i hcandidate
    rw [Option.isNone_iff_eq_none] at hcandidate
    rw [hcandidate.1, hcandidate.2]
    cases hdoc : g.g_doctext with
    | none =>
      refine iff_of_false ?_ (by simp)
      rintro ⟨next, h⟩
      cases h
    | some s => exact iff_of_true ⟨_, rfl⟩ (.inl (by simp))
  · rename_i hcandidate
    refine iff_of_true ⟨g, rfl⟩ (.inr ?_)
    by_contra hnot
    rw [not_or, not_not, not_not] at hnot
    exact hcandidate ⟨Option.isNone_iff_eq_none.mpr hnot.1, hnot.2⟩

/-- The action ends, and no later use of the texts faults, exactly when the text has two
    characters and is not a first text of blanks on one line. -/
theorem doctext_completes_iff {yytext : List Char} (h : yytext ∈ ThriftLexer.doctext.language)
    (yylineno : ℕ) (g : Globals) :
    (∃ next, doctextAction .PROGRAM yytext yylineno g = .ok next ∧
        ∀ uses : List Use, ∃ last, uses.foldlM (Use.perform .PROGRAM) next = .ok last) ↔
      (∀ c ∈ (yytext.drop 3).take 2, c ≠ Char.ofNat 0) ∧
        (¬ OnlyBlanks yytext ∨ g.g_program_doctext_candidate ≠ none ∨
          g.g_program_doctext_status ≠ .INVALID) := by
  obtain ⟨body, rfl⟩ := doctext_length h
  have hpair : ∃ a b text, body ++ ['*', '/'] = a :: b :: text := by
    match body with
    | [] => exact ⟨_, _, _, rfl⟩
    | [a] => exact ⟨_, _, _, rfl⟩
    | a :: b :: text => exact ⟨_, _, _, rfl⟩
  obtain ⟨a, b, text, hpair⟩ := hpair
  have hdrop : (['/', '*', '*'] ++ (body ++ ['*', '/'])).drop 3 = a :: b :: text := by
    rw [hpair]
    rfl
  have htwo : 2 ≤ (cString ((['/', '*', '*'] ++ (body ++ ['*', '/'])).drop 3)).length ↔
      ∀ c ∈ ((['/', '*', '*'] ++ (body ++ ['*', '/'])).drop 3).take 2, c ≠ Char.ofNat 0 := by
    rw [hdrop]
    exact cString_length
  rw [← htwo]
  have huses (next : Globals) (uses : List Use) :
      ∃ last, uses.foldlM (Use.perform .PROGRAM) next = .ok last := by
    obtain ⟨last, hlast, -⟩ := Returns.foldlM (use_returns .PROGRAM) next
    exact ⟨last, hlast⟩
  simp only [huses, implies_true, and_true]
  by_cases hlength : 2 ≤ (cString ((['/', '*', '*'] ++ (body ++ ['*', '/'])).drop 3)).length
  · obtain ⟨doctext, hnone, haction⟩ := doctextAction_eq hlength
    rw [haction, setCandidate_returns_iff, and_iff_right hlength]
    exact or_congr_left (not_congr hnone)
  · refine iff_of_false ?_ fun h => hlength h.1
    rintro ⟨next, haction⟩
    have hassert : assert (2 ≤ (CString.strdup
        ((['/', '*', '*'] ++ (body ++ ['*', '/'])).drop 3)).text.length) = .error .assertion :=
      if_neg hlength
    unfold doctextAction at haction
    dsimp only at haction
    rw [hassert] at haction
    cases haction

def fresh : Globals := ⟨none, 0, none, 0, .INVALID, []⟩

theorem word_doctext_completes :
    ∃ next, doctextAction .PROGRAM ['/', '*', '*', 'a', '*', '/'] 1 fresh = .ok next := by
  have hdoctext : ['/', '*', '*', 'a', '*', '/'] ∈ ThriftLexer.doctext.language :=
    (accepts_iff _ _).mp (by decide)
  have hnot : ¬ OnlyBlanks ['/', '*', '*', 'a', '*', '/'] := fun h =>
    absurd (h 'a' (by decide)) (by decide)
  obtain ⟨next, hnext, -⟩ := (doctext_completes_iff hdoctext 1 fresh).mpr ⟨by decide, .inl hnot⟩
  exact ⟨next, hnext⟩

/-- A first comment of blanks gives its `NULL` to `strdup`. -/
theorem blank_doctext_crashes :
    ['/', '*', '*', ' ', '*', '/'] ∈ ThriftLexer.doctext.language ∧
      doctextAction .PROGRAM ['/', '*', '*', ' ', '*', '/'] 1 fresh = .error .nullPointer := by
  refine ⟨(accepts_iff _ _).mp (by decide), ?_⟩
  have hblanks : OnlyBlanks ['/', '*', '*', ' ', '*', '/'] := by
    unfold OnlyBlanks
    decide
  obtain ⟨doctext, hnone, haction⟩ :=
    @doctextAction_eq ['/', '*', '*', ' ', '*', '/'] 1 fresh (by decide)
  rw [haction, hnone.mpr hblanks]
  rfl

end Sparsam.DocText
