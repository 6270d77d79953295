import Mathlib.Data.List.Basic

set_option autoImplicit false

/-!
# Lines of an input stream

`getline` stores at most as many characters as its buffer holds and sets
`failbit` when the line is longer, or when there was nothing left to read.
-/
namespace Sparsam.InputStreams

/-- An `istream` over a text, with two of its state flags. -/
structure Stream where
  rest : List Char
  eof : Bool := false
  fail : Bool := false

/-- Why `getline` stopped. -/
inductive Ended where
  | eof
  | delimiter
  | full
deriving DecidableEq

/-- The characters stored, those left over, and why no more were stored. -/
def takeLine : ℕ → List Char → List Char × List Char × Ended
  | _, [] => ([], [], .eof)
  | 0, c :: cs => if c = '\n' then ([], cs, .delimiter) else ([], c :: cs, .full)
  | room + 1, c :: cs =>
    if c = '\n' then ([], cs, .delimiter)
    else
      let r := takeLine room cs
      (c :: r.1, r.2)

def Stream.getline (s : Stream) (size : ℕ) : List Char × Stream :=
  if s.eof || s.fail then ([], { s with fail := true })
  else
    let r := takeLine (size - 1) s.rest
    (r.1, { rest := r.2.1
            eof := r.2.2 == .eof
            fail := r.2.2 == .full || (r.2.2 == .eof && r.1.isEmpty) })

def Stream.remaining (s : Stream) : ℕ := if s.eof || s.fail then 0 else s.rest.length + 1

theorem takeLine_rest (room : ℕ) (cs : List Char) (h : (takeLine room cs).2.2 = .delimiter) :
    (takeLine room cs).2.1.length < cs.length := by
  fun_induction takeLine room cs with
  | case1 => cases h
  | case2 cs => simp
  | case3 => cases h
  | case4 room cs => simp
  | case5 room c cs hc r ih =>
    have hlt : r.2.1.length < cs.length := ih h
    exact Nat.lt_succ_of_lt hlt

theorem getline_remaining {s : Stream} (h : ¬ (s.eof || s.fail) = true) (size : ℕ) :
    (s.getline size).2.remaining < s.remaining := by
  unfold Stream.getline
  rw [if_neg h]
  unfold Stream.remaining
  rw [if_neg h]
  cases hended : (takeLine (size - 1) s.rest).2.2 with
  | eof => simp [hended]
  | full => simp [hended]
  | delimiter =>
    have hlt := takeLine_rest (size - 1) s.rest hended
    simp only [hended]
    split <;> omega

theorem newline_not_mem_takeLine (room : ℕ) (cs : List Char) : '\n' ∉ (takeLine room cs).1 := by
  fun_induction takeLine room cs with
  | case5 room c cs hc r ih =>
    intro h
    rcases List.mem_cons.mp h with h | h
    · exact hc h.symm
    · exact ih h
  | _ => exact List.not_mem_nil

theorem newline_not_mem_getline (s : Stream) (size : ℕ) : '\n' ∉ (s.getline size).1 := by
  unfold Stream.getline
  split
  · exact List.not_mem_nil
  · exact newline_not_mem_takeLine _ _

theorem takeLine_line {room : ℕ} {line : List Char} (hline : '\n' ∉ line)
    (hroom : line.length ≤ room) (rest : List Char) :
    takeLine room (line ++ '\n' :: rest) = (line, rest, .delimiter) := by
  induction line generalizing room with
  | nil => cases room <;> simp [takeLine]
  | cons c line ih =>
    obtain ⟨hc, hline⟩ := not_or.mp (fun h => hline (List.mem_cons.mpr h))
    cases room with
    | zero => simp at hroom
    | succ room =>
      rw [List.cons_append, takeLine, if_neg (Ne.symm hc), ih hline (by simpa using hroom)]

theorem takeLine_last {room : ℕ} {line : List Char} (hline : '\n' ∉ line)
    (hroom : line.length ≤ room) : takeLine room line = (line, [], .eof) := by
  induction line generalizing room with
  | nil => cases room <;> rfl
  | cons c line ih =>
    obtain ⟨hc, hline⟩ := not_or.mp (fun h => hline (List.mem_cons.mpr h))
    cases room with
    | zero => simp at hroom
    | succ room =>
      rw [takeLine, if_neg (Ne.symm hc), ih hline (by simpa using hroom)]

theorem takeLine_cut {room : ℕ} {line : List Char} (hline : '\n' ∉ line)
    (hroom : room < line.length) (rest : List Char) :
    takeLine room (line ++ rest) = (line.take room, line.drop room ++ rest, .full) := by
  induction line generalizing room with
  | nil => simp at hroom
  | cons c line ih =>
    obtain ⟨hc, hline⟩ := not_or.mp (fun h => hline (List.mem_cons.mpr h))
    cases room with
    | zero =>
      rw [List.cons_append, takeLine, if_neg (Ne.symm hc)]
      rfl
    | succ room =>
      rw [List.cons_append, takeLine, if_neg (Ne.symm hc), ih hline (by simpa using hroom)]
      rfl

/-- The lines of a text; after its last newline there is none. -/
def textLines : List Char → List (List Char)
  | [] => []
  | c :: cs =>
    if c = '\n' then [] :: textLines cs
    else
      match textLines cs with
      | [] => [[c]]
      | line :: lines => (c :: line) :: lines

inductive Lines : List Char → List (List Char) → Prop
  | nil : Lines [] []
  | last {line : List Char} (hline : '\n' ∉ line) (hne : line ≠ []) : Lines line [line]
  | cons {line rest : List Char} {lines : List (List Char)} (hline : '\n' ∉ line)
      (h : Lines rest lines) : Lines (line ++ '\n' :: rest) (line :: lines)

theorem lines_textLines (text : List Char) : Lines text (textLines text) := by
  induction text with
  | nil => exact .nil
  | cons c cs ih =>
    unfold textLines
    by_cases hc : c = '\n'
    · rw [if_pos hc, hc]
      exact @Lines.cons [] cs _ (by simp) ih
    · rw [if_neg hc]
      generalize textLines cs = lines at ih
      cases ih with
      | nil => exact .last (by simp [Ne.symm hc]) (by simp)
      | last hline hne => exact .last (by simp [Ne.symm hc, hline]) (by simp)
      | cons hline h =>
        rw [← List.cons_append]
        exact .cons (by simp [Ne.symm hc, hline]) h

theorem textLines_line {line : List Char} (hline : '\n' ∉ line) (rest : List Char) :
    textLines (line ++ '\n' :: rest) = line :: textLines rest := by
  induction line with
  | nil => rw [List.nil_append, textLines, if_pos rfl]
  | cons c line ih =>
    obtain ⟨hc, hline⟩ := not_or.mp (fun h => hline (List.mem_cons.mpr h))
    rw [List.cons_append, textLines, if_neg (Ne.symm hc), ih hline]

theorem append_cons_inj {c : Char} {a b as bs : List Char} (ha : c ∉ a) (hb : c ∉ b)
    (h : a ++ c :: as = b ++ c :: bs) : a = b ∧ as = bs := by
  induction a generalizing b with
  | nil =>
    cases b with
    | nil => exact ⟨rfl, (List.cons.inj h).2⟩
    | cons d b =>
      obtain ⟨rfl, -⟩ := List.cons.inj h
      simp at hb
  | cons d a ih =>
    cases b with
    | nil =>
      obtain ⟨rfl, -⟩ := List.cons.inj h
      simp at ha
    | cons e b =>
      have hparts := List.cons.inj h
      obtain ⟨hsame, hrest⟩ := ih (fun hc => ha (List.mem_cons_of_mem d hc))
        (fun hc => hb (List.mem_cons_of_mem e hc)) hparts.2
      rw [hparts.1, hsame]
      exact ⟨rfl, hrest⟩

end Sparsam.InputStreams
