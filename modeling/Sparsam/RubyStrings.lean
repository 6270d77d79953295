import Mathlib.Data.List.Basic

set_option autoImplicit false

/-!
# Ruby's quoted literals

`'text'` and `%q"text"` are read alike: a backslash is removed before a
backslash or the delimiter and stands for itself before anything else, and the
literal ends at the first delimiter that is not escaped.
-/
namespace Sparsam.RubyStrings

/-- A text's own characters are gone through, not all that exist. -/
instance (priority := 1100) decidableAllChars (P : Char → Prop) [DecidablePred P]
    (text : List Char) : Decidable (∀ c ∈ text, P c) :=
  List.decidableBAll P text

/-- The literal after its opening delimiter and the text that follows it. -/
def readQuoted (delim : Char) : List Char → Option (List Char × List Char)
  | [] => none
  | c :: cs =>
    if c = delim then some ([], cs)
    else if c = '\\' then
      match cs with
      | [] => none
      | d :: ds =>
        if d = '\\' ∨ d = delim then (readQuoted delim ds).map fun r => (d :: r.1, r.2)
        else (readQuoted delim (d :: ds)).map fun r => ('\\' :: r.1, r.2)
    else (readQuoted delim cs).map fun r => (c :: r.1, r.2)

section
variable {delim : Char}

theorem readQuoted_delim (rest : List Char) :
    readQuoted delim (delim :: rest) = some ([], rest) := by
  unfold readQuoted
  rw [if_pos rfl]

theorem readQuoted_char {c : Char} (hdelim : c ≠ delim) (hslash : c ≠ '\\') (cs : List Char) :
    readQuoted delim (c :: cs) = (readQuoted delim cs).map fun r => (c :: r.1, r.2) := by
  rw [readQuoted.eq_def]
  dsimp only
  rw [if_neg hdelim, if_neg hslash]

theorem readQuoted_escaped (hdelim : delim ≠ '\\') {d : Char} (hd : d = '\\' ∨ d = delim)
    (ds : List Char) : readQuoted delim ('\\' :: d :: ds) =
      (readQuoted delim ds).map fun r => (d :: r.1, r.2) := by
  rw [readQuoted.eq_def]
  dsimp only
  rw [if_neg hdelim.symm, if_pos rfl, if_pos hd]

theorem readQuoted_slash (hdelim : delim ≠ '\\') {d : Char} (hd : ¬ (d = '\\' ∨ d = delim))
    (ds : List Char) : readQuoted delim ('\\' :: d :: ds) =
      (readQuoted delim (d :: ds)).map fun r => ('\\' :: r.1, r.2) := by
  rw [readQuoted.eq_def]
  dsimp only
  rw [if_neg hdelim.symm, if_pos rfl, if_neg hd]

theorem readQuoted_plain {s : List Char} (h : ∀ c ∈ s, c ≠ delim ∧ c ≠ '\\') (text : List Char) :
    readQuoted delim (s ++ text) = (readQuoted delim text).map fun r => (s ++ r.1, r.2) := by
  induction s with
  | nil => simp
  | cons c s ih =>
    obtain ⟨hdelim, hslash⟩ := h c (by simp)
    rw [List.cons_append, readQuoted_char hdelim hslash, ih fun d hd => h d (by simp [hd]),
      Option.map_map]
    rfl

theorem readQuoted_literal {s : List Char} (h : ∀ c ∈ s, c ≠ delim ∧ c ≠ '\\')
    (rest : List Char) : readQuoted delim (s ++ delim :: rest) = some (s, rest) := by
  rw [readQuoted_plain h, readQuoted_delim, Option.map_some, List.append_nil]

theorem readQuoted_length {text s rest : List Char} (h : readQuoted delim text = some (s, rest)) :
    s.length + rest.length < text.length := by
  fun_induction readQuoted delim text generalizing s rest with
  | case1 => cases h
  | case2 cs =>
    obtain ⟨rfl, rfl⟩ := Prod.mk.inj (Option.some.inj h)
    simp
  | case3 => cases h
  | case4 d ds _ _ ih | case5 d ds _ _ ih | case6 d ds _ _ ih =>
    obtain ⟨⟨s', rest'⟩, hr, heq⟩ := Option.map_eq_some_iff.mp h
    obtain ⟨rfl, rfl⟩ := Prod.mk.inj heq
    have hlen := ih hr
    simp only [List.length_cons] at hlen ⊢
    omega

end

/-- The text of a literal as it stands between its delimiters, and what follows it. -/
def scanQuoted (delim : Char) : List Char → Option (List Char × List Char)
  | [] => none
  | c :: cs =>
    if c = delim then some ([], cs)
    else if c = '\\' then
      match cs with
      | [] => none
      | d :: ds => (scanQuoted delim ds).map fun r => ('\\' :: d :: r.1, r.2)
    else (scanQuoted delim cs).map fun r => (c :: r.1, r.2)

/-- What the text between the delimiters denotes. -/
def unescape (delim : Char) : List Char → List Char
  | [] => []
  | c :: cs =>
    if c = '\\' then
      match cs with
      | [] => ['\\']
      | d :: ds =>
        if d = '\\' ∨ d = delim then d :: unescape delim ds
        else '\\' :: d :: unescape delim ds
    else c :: unescape delim cs

section
variable {delim : Char}

theorem unescape_char {c : Char} (h : c ≠ '\\') (cs : List Char) :
    unescape delim (c :: cs) = c :: unescape delim cs := by
  rw [unescape.eq_def]
  dsimp only
  rw [if_neg h]

theorem readQuoted_eq_scan (hdelim : delim ≠ '\\') (text : List Char) :
    readQuoted delim text =
      (scanQuoted delim text).map fun r => (unescape delim r.1, r.2) := by
  fun_induction scanQuoted delim text with
  | case1 => rfl
  | case2 cs => exact readQuoted_delim cs
  | case3 =>
    unfold readQuoted
    rw [if_neg hdelim.symm, if_pos rfl]
    rfl
  | case4 d ds _ ih =>
    rw [Option.map_map]
    by_cases hd : d = '\\' ∨ d = delim
    · rw [readQuoted_escaped hdelim hd, ih, Option.map_map]
      congr 1
      funext r
      simp [unescape, hd]
    · obtain ⟨hslash, hend⟩ := not_or.mp hd
      rw [readQuoted_slash hdelim hd, readQuoted_char hend hslash, ih, Option.map_map,
        Option.map_map]
      congr 1
      funext r
      simp [unescape, hd]
  | case5 c cs hend hslash ih =>
    rw [readQuoted_char hend hslash, ih, Option.map_map, Option.map_map]
    congr 1
    funext r
    exact Prod.ext (unescape_char hslash r.1).symm rfl

theorem scanQuoted_eq {text raw rest : List Char} (h : scanQuoted delim text = some (raw, rest)) :
    text = raw ++ delim :: rest := by
  fun_induction scanQuoted delim text generalizing raw rest with
  | case1 => cases h
  | case2 cs =>
    obtain ⟨rfl, rfl⟩ := Prod.mk.inj (Option.some.inj h)
    rfl
  | case3 => cases h
  | case4 d ds _ ih =>
    obtain ⟨⟨raw', rest'⟩, hr, heq⟩ := Option.map_eq_some_iff.mp h
    obtain ⟨rfl, rfl⟩ := Prod.mk.inj heq
    rw [ih hr]
    rfl
  | case5 c cs _ _ ih =>
    obtain ⟨⟨raw', rest'⟩, hr, heq⟩ := Option.map_eq_some_iff.mp h
    obtain ⟨rfl, rfl⟩ := Prod.mk.inj heq
    rw [ih hr]
    rfl

theorem scanQuoted_length {text raw rest : List Char}
    (h : scanQuoted delim text = some (raw, rest)) : rest.length < text.length := by
  rw [scanQuoted_eq h, List.length_append, List.length_cons]
  omega

/-- Text that keeps a literal open: no delimiter and no last backslash stands unescaped. -/
def Inside (delim : Char) (raw : List Char) : Prop :=
  ∀ rest, scanQuoted delim (raw ++ delim :: rest) = some (raw, rest)

theorem inside_nil : Inside delim [] := by
  intro rest
  rw [List.nil_append, scanQuoted.eq_def]
  dsimp only
  rw [if_pos rfl]

theorem Inside.cons {c : Char} {raw : List Char} (hend : c ≠ delim) (hslash : c ≠ '\\')
    (h : Inside delim raw) : Inside delim (c :: raw) := by
  intro rest
  rw [List.cons_append, scanQuoted.eq_def]
  dsimp only
  rw [if_neg hend, if_neg hslash, h rest, Option.map_some]

theorem Inside.escaped (hdelim : delim ≠ '\\') {raw : List Char} (d : Char)
    (h : Inside delim raw) : Inside delim ('\\' :: d :: raw) := by
  intro rest
  rw [List.cons_append, List.cons_append, scanQuoted.eq_def]
  dsimp only
  rw [if_neg hdelim.symm, if_pos rfl, h rest, Option.map_some]

/-- Text without the delimiter in which every backslash has a character after it that is
    no backslash. -/
def Quotable (delim : Char) : List Char → Prop
  | [] => True
  | c :: cs => c ≠ delim ∧ (c = '\\' → ∃ d ∈ cs.head?, d ≠ '\\') ∧ Quotable delim cs

/-- The text between two delimiters is read as itself. -/
def ReadsItself (delim : Char) (s : List Char) : Prop :=
  ∀ rest, readQuoted delim (s ++ delim :: rest) = some (s, rest)

theorem readsItself_cons {c : Char} {s : List Char}
    (h : ∀ rest, readQuoted delim (c :: (s ++ delim :: rest)) =
      (readQuoted delim (s ++ delim :: rest)).map fun r => (c :: r.1, r.2)) :
    ReadsItself delim (c :: s) ↔ ReadsItself delim s := by
  unfold ReadsItself
  refine forall_congr' fun rest => ?_
  rw [List.cons_append, h rest, Option.map_eq_some_iff]
  constructor
  · rintro ⟨r, hr, heq⟩
    obtain ⟨hs, hrest⟩ := Prod.mk.inj heq
    rw [hr, ← (List.cons.inj hs).2, ← hrest]
  · intro hr
    exact ⟨_, hr, rfl⟩

theorem not_readsItself_escaped (hdelim : delim ≠ '\\') {d : Char} (hd : d = '\\' ∨ d = delim)
    (s : List Char) : ¬ ReadsItself delim ('\\' :: d :: s) := by
  intro h
  have hread := h []
  rw [List.cons_append, List.cons_append, readQuoted_escaped hdelim hd,
    Option.map_eq_some_iff] at hread
  obtain ⟨r, hr, heq⟩ := hread
  obtain ⟨hs, -⟩ := Prod.mk.inj heq
  have hlen := readQuoted_length hr
  rw [(List.cons.inj hs).2] at hlen
  simp only [List.length_append, List.length_cons, List.length_nil] at hlen
  omega

theorem not_readsItself_delim (s : List Char) : ¬ ReadsItself delim (delim :: s) := by
  intro h
  have hread := h []
  rw [List.cons_append, readQuoted_delim] at hread
  cases hread

theorem not_readsItself_slash (hdelim : delim ≠ '\\') : ¬ ReadsItself delim ['\\'] := by
  intro h
  have hread := h []
  rw [List.singleton_append, readQuoted_escaped hdelim (.inr rfl), Option.map_eq_some_iff] at hread
  obtain ⟨r, -, heq⟩ := hread
  exact hdelim (List.cons.inj (Prod.mk.inj heq).1).1

theorem readsItself_slash (hdelim : delim ≠ '\\') (s : List Char) :
    ReadsItself delim ('\\' :: s) ↔ (∃ d ∈ s.head?, d ≠ '\\') ∧ ReadsItself delim s := by
  cases s with
  | nil => exact iff_of_false (not_readsItself_slash hdelim) (by simp)
  | cons d s =>
    simp only [List.head?_cons, Option.mem_some_iff, exists_eq_left']
    by_cases hslash : d = '\\'
    · exact iff_of_false (not_readsItself_escaped hdelim (.inl hslash) s) fun h => h.1 hslash
    by_cases hend : d = delim
    · refine iff_of_false (not_readsItself_escaped hdelim (.inr hend) s) fun h => ?_
      subst hend
      exact not_readsItself_delim s h.2
    rw [readsItself_cons fun rest => readQuoted_slash hdelim (not_or.mpr ⟨hslash, hend⟩) _]
    exact (and_iff_right hslash).symm

theorem readsItself_iff (hdelim : delim ≠ '\\') (s : List Char) :
    ReadsItself delim s ↔ Quotable delim s := by
  induction s with
  | nil => exact iff_of_true (fun rest => readQuoted_delim rest) trivial
  | cons c s ih =>
    unfold Quotable
    rw [← ih]
    by_cases hend : c = delim
    · subst hend
      exact iff_of_false (not_readsItself_delim s) fun h => h.1 rfl
    by_cases hslash : c = '\\'
    · subst hslash
      rw [readsItself_slash hdelim]
      simp [hend]
    · rw [readsItself_cons fun rest => readQuoted_char hend hslash _]
      simp [hend, hslash]

theorem ReadsItself.inside (hdelim : delim ≠ '\\') {s : List Char} (h : ReadsItself delim s) :
    Inside delim s ∧ unescape delim s = s := by
  have hscan : ∀ rest, scanQuoted delim (s ++ delim :: rest) = some (s, rest) ∧
      unescape delim s = s := by
    intro rest
    have hread := h rest
    rw [readQuoted_eq_scan hdelim, Option.map_eq_some_iff] at hread
    obtain ⟨⟨raw, rest'⟩, hr, heq⟩ := hread
    obtain ⟨hraw, rfl⟩ := Prod.mk.inj heq
    obtain rfl : s = raw := List.append_cancel_right (scanQuoted_eq hr)
    exact ⟨hr, hraw⟩
  exact ⟨fun rest => (hscan rest).1, (hscan []).2⟩

end

end Sparsam.RubyStrings
