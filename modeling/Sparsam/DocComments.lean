import Mathlib.Data.List.TakeWhile
import Sparsam.InputStreams

set_option autoImplicit false

/-!
# Doc texts as comments

`generate_rdoc` reads a doc text line by line through a buffer of 1024 bytes
and prints each line behind `# `. A line that does not fit is cut and ends the
comment.
-/
namespace Sparsam.DocComments
open InputStreams

/-- What `<<` prints of a `char` array: the part before its first NUL. -/
def cString (line : List Char) : List Char := line.takeWhile (· ≠ Char.ofNat 0)

/-- What one round of the loop prints; `eof` is the flag after `getline`. -/
def docstringLine (indent linePrefix line : List Char) (eof : Bool) : List Char :=
  if line = [] ∧ linePrefix = [] ∧ eof = false then ['\n']
  else if line ≠ [] ∨ eof = false then indent ++ (linePrefix ++ (line ++ ['\n']))
  else [] -- the empty last line is skipped

def docstringLoop (indent linePrefix : List Char) (docs : Stream) : List Char :=
  if (docs.eof || docs.fail) = true then []
  else
    docstringLine indent linePrefix (cString (docs.getline 1024).1) (docs.getline 1024).2.eof ++
      docstringLoop indent linePrefix (docs.getline 1024).2
termination_by docs.remaining
decreasing_by exact getline_remaining (by assumption) 1024

def generateDocstringComment (indent commentStart linePrefix contents commentEnd : List Char) :
    List Char :=
  (if commentStart ≠ [] then indent ++ commentStart else []) ++
    docstringLoop indent linePrefix { rest := contents } ++
      if commentEnd ≠ [] then indent ++ commentEnd else []

/-- `indent()`, of the generator and of its output file. -/
def indent (depth : ℕ) : List Char := (List.replicate depth [' ', ' ']).flatten

/-- `out` is the depth of the output file, `depth` the one of the generator. -/
def generateRdoc (out depth : ℕ) (doc : Option String) : List Char :=
  match doc with
  | none => []
  | some doc =>
    indent out ++ generateDocstringComment (indent depth) [] ['#', ' '] doc.toList []

/-- A text that consists of these lines as comments. -/
inductive Commented : List (List Char) → List Char → Prop
  | nil : Commented [] []
  | cons {indent line out : List Char} {lines : List (List Char)} (hindent : ∀ c ∈ indent, c = ' ')
      (h : Commented lines out) :
      Commented (line :: lines) (indent ++ (['#', ' '] ++ (line ++ ['\n'])) ++ out)

section Loop
variable {indent linePrefix : List Char}

theorem docstringLoop_stopped {docs : Stream} (h : (docs.eof || docs.fail) = true) :
    docstringLoop indent linePrefix docs = [] := by
  rw [docstringLoop, if_pos h]

theorem docstringLoop_round {text line rest : List Char} {ended : Ended}
    (h : takeLine 1023 text = (line, rest, ended)) :
    docstringLoop indent linePrefix { rest := text } =
      docstringLine indent linePrefix (cString line) (ended == .eof) ++
        docstringLoop indent linePrefix
          ⟨rest, ended == .eof, ended == .full || (ended == .eof && line.isEmpty)⟩ := by
  have hgetline : Stream.getline { rest := text } 1024 =
      (line, ⟨rest, ended == .eof, ended == .full || (ended == .eof && line.isEmpty)⟩) := by
    unfold Stream.getline
    rw [if_neg (by simp)]
    change ((takeLine 1023 text).1, _) = _
    rw [h]
  rw [docstringLoop, if_neg (by simp), hgetline]

theorem docstringLoop_nil : docstringLoop indent linePrefix { rest := [] } = [] := by
  have hnil : takeLine 1023 [] = ([], [], .eof) := rfl
  rw [docstringLoop_round hnil, docstringLoop_stopped rfl, List.append_nil]
  unfold docstringLine
  rw [if_neg (by simp), if_neg (by simp [cString])]

theorem docstringLoop_line {line : List Char} (hlinePrefix : linePrefix ≠ []) (hline : '\n' ∉ line)
    (hroom : line.length ≤ 1023) (rest : List Char) :
    docstringLoop indent linePrefix { rest := line ++ '\n' :: rest } =
      indent ++ (linePrefix ++ (cString line ++ ['\n'])) ++
        docstringLoop indent linePrefix { rest } := by
  rw [docstringLoop_round (takeLine_line hline hroom rest)]
  congr 1
  unfold docstringLine
  rw [if_neg (fun h => hlinePrefix h.2.1), if_pos (.inr rfl)]

theorem docstringLoop_last {line : List Char} (hlinePrefix : linePrefix ≠ []) (hline : '\n' ∉ line)
    (hroom : line.length ≤ 1023) :
    docstringLoop indent linePrefix { rest := line } =
      if cString line ≠ [] then indent ++ (linePrefix ++ (cString line ++ ['\n'])) else [] := by
  rw [docstringLoop_round (takeLine_last hline hroom), docstringLoop_stopped rfl, List.append_nil]
  unfold docstringLine
  rw [if_neg (fun h => hlinePrefix h.2.1)]
  exact if_congr (by simp) rfl rfl

theorem docstringLoop_cut {line : List Char} (hlinePrefix : linePrefix ≠ []) (hline : '\n' ∉ line)
    (hroom : 1023 < line.length) (rest : List Char) :
    docstringLoop indent linePrefix { rest := line ++ rest } =
      indent ++ (linePrefix ++ (cString (line.take 1023) ++ ['\n'])) := by
  rw [docstringLoop_round (takeLine_cut hline hroom rest), docstringLoop_stopped rfl,
    List.append_nil]
  unfold docstringLine
  rw [if_neg (fun h => hlinePrefix h.2.1), if_pos (.inr rfl)]

end Loop

theorem cString_eq {line : List Char} : cString line = line ↔ Char.ofNat 0 ∉ line := by
  unfold cString
  rw [List.takeWhile_eq_self_iff]
  constructor
  · intro h hnul
    simpa using h _ hnul
  · intro h c hc
    rw [decide_eq_true_eq]
    rintro rfl
    exact h hc

theorem mem_cString {line : List Char} {c : Char} (h : c ∈ cString line) : c ∈ line :=
  (List.takeWhile_prefix _).subset h

/-- A line that the buffer and the C string in it can hold. -/
def Fits (line : List Char) : Prop := line.length ≤ 1023 ∧ Char.ofNat 0 ∉ line

section Complete
variable {indent : List Char} (hindent : ∀ c ∈ indent, c = ' ')
include hindent

theorem hash_not_mem : '#' ∉ indent := fun h => by simpa using hindent _ h

theorem Commented.indented {line out : List Char} {lines : List (List Char)}
    (h : Commented (line :: lines) out) : Commented (line :: lines) (indent ++ out) := by
  cases h with
  | @cons indent' _ out' _ hindent' h =>
    have hboth : ∀ c ∈ indent ++ indent', c = ' ' := fun c hc =>
      (List.mem_append.mp hc).elim (hindent c) (hindent' c)
    have hcons := @Commented.cons _ line _ _ hboth h
    rw [List.append_assoc, List.append_assoc] at hcons
    rw [List.append_assoc]
    exact hcons

theorem loop_commented {text : List Char} {lines : List (List Char)} (h : Lines text lines)
    (hfits : ∀ line ∈ lines, Fits line) :
    Commented lines (docstringLoop indent ['#', ' '] { rest := text }) := by
  induction h with
  | nil =>
    rw [docstringLoop_nil]
    exact .nil
  | @last line hline hne =>
    obtain ⟨hroom, hnul⟩ := hfits line (by simp)
    rw [docstringLoop_last (by simp) hline hroom, cString_eq.mpr hnul, if_pos hne,
      ← List.append_nil (indent ++ _)]
    exact .cons hindent .nil
  | @cons line rest lines hline h ih =>
    obtain ⟨hroom, hnul⟩ := hfits line (by simp)
    rw [docstringLoop_line (by simp) hline hroom, cString_eq.mpr hnul]
    exact .cons hindent (ih fun l hl => hfits l (by simp [hl]))

theorem commented_line {line line' out : List Char} {lines : List (List Char)}
    (hline : '\n' ∉ line) (hline' : '\n' ∉ line')
    (h : Commented (line :: lines) (indent ++ (['#', ' '] ++ (line' ++ ['\n'])) ++ out)) :
    line' = line ∧ Commented lines out := by
  generalize hall : indent ++ (['#', ' '] ++ (line' ++ ['\n'])) ++ out = all at h
  cases h with
  | @cons indent' _ out' _ hindent' h =>
    simp only [List.append_assoc, List.cons_append, List.nil_append] at hall
    obtain ⟨-, hall⟩ := append_cons_inj (hash_not_mem hindent) (hash_not_mem hindent') hall
    obtain ⟨hsame, hout⟩ := append_cons_inj hline' hline (List.cons.inj hall).2
    rw [hsame, hout]
    exact ⟨rfl, h⟩

theorem commented_blank {lines : List (List Char)} (h : Commented lines indent) : lines = [] := by
  cases h with
  | nil => rfl
  | cons hindent' h =>
    have hhash := hindent '#' (by simp)
    cases hhash

/-- A whole comment shows that nothing was cut; `out` stands for what was printed before. -/
theorem fits_of_commented {text : List Char} {lines : List (List Char)} (h : Lines text lines)
    {out : List Char} (hblank : ∀ c ∈ out, c = ' ')
    (hout : Commented lines (out ++ docstringLoop indent ['#', ' '] { rest := text })) :
    ∀ line ∈ lines, Fits line := by
  have hboth : ∀ {out : List Char}, (∀ c ∈ out, c = ' ') → ∀ c ∈ out ++ indent, c = ' ' :=
    fun hout c hc => (List.mem_append.mp hc).elim (hout c) (hindent c)
  have hcut : ∀ {line rest out : List Char} {lines : List (List Char)}, (∀ c ∈ out, c = ' ') →
      '\n' ∉ line → 1023 < line.length →
      ¬ Commented (line :: lines)
        (out ++ docstringLoop indent ['#', ' '] { rest := line ++ rest }) := by
    intro line rest out lines hblank hline hroom hout
    rw [docstringLoop_cut (by simp) hline hroom, ← List.append_assoc,
      ← List.append_nil (out ++ indent ++ _)] at hout
    have hline' : '\n' ∉ cString (line.take 1023) := fun h =>
      hline (List.mem_of_mem_take (mem_cString h))
    have hsame := (commented_line (hboth hblank) hline hline' hout).1
    have hshort : (cString (line.take 1023)).length ≤ 1023 :=
      (List.takeWhile_prefix _).length_le.trans (List.length_take_le _ _)
    rw [hsame] at hshort
    omega
  induction h generalizing out with
  | nil => simp
  | @last line hline hne =>
    rintro _ (_ | ⟨_, ⟨⟩⟩)
    by_cases hroom : line.length ≤ 1023
    · rw [docstringLoop_last (by simp) hline hroom] at hout
      split at hout
      · rw [← List.append_assoc, ← List.append_nil (out ++ indent ++ _)] at hout
        have hsame := (commented_line (hboth hblank) hline (fun h => hline (mem_cString h)) hout).1
        exact ⟨hroom, cString_eq.mp hsame⟩
      · rw [List.append_nil] at hout
        cases commented_blank hblank hout
    · have hlong := @hcut line [] out [] hblank hline (by omega)
      rw [List.append_nil] at hlong
      exact absurd hout hlong
  | @cons line rest lines hline h ih =>
    by_cases hroom : line.length ≤ 1023
    · rw [docstringLoop_line (by simp) hline hroom, ← List.append_assoc,
        ← List.append_assoc] at hout
      obtain ⟨hsame, hrest⟩ := commented_line (hboth hblank) hline
        (fun h => hline (mem_cString h)) hout
      intro l hl
      rcases List.mem_cons.mp hl with rfl | hl
      · exact ⟨hroom, cString_eq.mp hsame⟩
      · exact @ih [] (by simp) hrest l hl
    · exact absurd hout (hcut hblank hline (by omega))

theorem loop_only_comments {text : List Char} {lines : List (List Char)} (h : Lines text lines) :
    ∃ printed, Commented printed (docstringLoop indent ['#', ' '] { rest := text }) ∧
      (Char.ofNat 0 ∉ text → text ≠ [] → printed ≠ []) := by
  have hone : ∀ line : List Char,
      Commented [line] (indent ++ (['#', ' '] ++ (line ++ ['\n']))) := by
    intro line
    rw [← List.append_nil (indent ++ _)]
    exact .cons hindent .nil
  have hcut : ∀ {line : List Char} (rest : List Char), '\n' ∉ line → 1023 < line.length →
      ∃ printed, Commented printed (docstringLoop indent ['#', ' '] { rest := line ++ rest }) ∧
        printed ≠ [] := by
    intro line rest hline hroom
    rw [docstringLoop_cut (by simp) hline hroom]
    exact ⟨_, hone _, by simp⟩
  induction h with
  | nil =>
    rw [docstringLoop_nil]
    exact ⟨[], .nil, fun _ h => absurd rfl h⟩
  | @last line hline hne =>
    by_cases hroom : line.length ≤ 1023
    · rw [docstringLoop_last (by simp) hline hroom]
      split
      · exact ⟨_, hone _, fun _ _ => by simp⟩
      · rename_i hnone
        refine ⟨[], .nil, fun hnul => ?_⟩
        rw [cString_eq.mpr hnul] at hnone
        exact absurd hne hnone
    · obtain ⟨printed, hprinted, hsome⟩ := hcut [] hline (by omega)
      rw [List.append_nil] at hprinted
      exact ⟨printed, hprinted, fun _ _ => hsome⟩
  | @cons line rest lines hline h ih =>
    by_cases hroom : line.length ≤ 1023
    · rw [docstringLoop_line (by simp) hline hroom]
      obtain ⟨printed, hprinted, -⟩ := ih
      exact ⟨_, .cons hindent hprinted, fun _ _ => by simp⟩
    · obtain ⟨printed, hprinted, hsome⟩ := hcut ('\n' :: rest) hline (by omega)
      exact ⟨printed, hprinted, fun _ _ => hsome⟩

end Complete

theorem indent_blank (depth : ℕ) : ∀ c ∈ indent depth, c = ' ' := by
  intro c hc
  unfold indent at hc
  obtain ⟨piece, hpiece, hc⟩ := List.mem_flatten.mp hc
  rw [List.eq_of_mem_replicate hpiece] at hc
  simpa using hc

theorem indent_nil {out : ℕ} (h : Commented [] (indent out)) : out = 0 := by
  generalize hind : indent out = ind at h
  cases h
  have hlength := congrArg List.length hind
  unfold indent at hlength
  have htwice : out * 2 = 0 := by simpa using hlength
  omega

theorem generateRdoc_some (out depth : ℕ) (doc : String) :
    generateRdoc out depth (some doc) =
      indent out ++ docstringLoop (indent depth) ['#', ' '] { rest := doc.toList } := by
  change indent out ++ generateDocstringComment _ [] _ _ [] = _
  unfold generateDocstringComment
  rw [if_neg (fun h => h rfl), List.nil_append, List.append_nil]

theorem textLines_ne_nil {doc : String} (h : doc ≠ "") :
    ∃ line lines, textLines doc.toList = line :: lines := by
  refine List.exists_cons_of_ne_nil fun hnil => ?_
  have hlines := lines_textLines doc.toList
  rw [hnil] at hlines
  generalize htext : doc.toList = text at hlines
  cases hlines
  exact h (String.toList_eq_nil_iff.mp htext)

/-- A text that is not empty is printed as comments only, cut or not. -/
theorem rdoc_only_comments (out depth : ℕ) {doc : String} (hdoc : doc ≠ "")
    (hnul : Char.ofNat 0 ∉ doc.toList) :
    ∃ printed, Commented printed (generateRdoc out depth (some doc)) := by
  obtain ⟨printed, hprinted, hsome⟩ :=
    loop_only_comments (indent_blank depth) (lines_textLines doc.toList)
  have hne := hsome hnul fun h => hdoc (String.toList_eq_nil_iff.mp h)
  obtain ⟨line, lines, rfl⟩ := List.exists_cons_of_ne_nil hne
  rw [generateRdoc_some]
  exact ⟨_, hprinted.indented (indent_blank out)⟩

/-- The comment has every line of the text exactly when each fits into the buffer; a text without
    a line leaves its indentation behind. -/
theorem rdoc_complete_iff (out depth : ℕ) (doc : String) :
    Commented (textLines doc.toList) (generateRdoc out depth (some doc)) ↔
      (∀ line ∈ textLines doc.toList, Fits line) ∧ (doc = "" → out = 0) := by
  have hlines := lines_textLines doc.toList
  rw [generateRdoc_some]
  constructor
  · intro h
    refine ⟨fits_of_commented (indent_blank depth) hlines (indent_blank out) h, ?_⟩
    intro hdoc
    rw [hdoc] at h
    change Commented [] (indent out ++ docstringLoop _ _ { rest := [] }) at h
    rw [docstringLoop_nil, List.append_nil] at h
    exact indent_nil h
  · rintro ⟨hfits, hempty⟩
    have hloop := loop_commented (indent_blank depth) hlines hfits
    by_cases hdoc : doc = ""
    · rw [hdoc, hempty hdoc]
      change Commented [] (docstringLoop _ _ { rest := [] })
      rw [docstringLoop_nil]
      exact .nil
    · obtain ⟨line, lines, heq⟩ := textLines_ne_nil hdoc
      rw [heq] at hloop ⊢
      exact hloop.indented (indent_blank out)

def longDoc : String := String.ofList (List.replicate 1024 'a' ++ ['\n', 'b'])

theorem longDoc_cut : ¬ Commented (textLines longDoc.toList) (generateRdoc 1 0 (some longDoc)) := by
  intro h
  rw [generateRdoc_some] at h
  have hfits := fits_of_commented (indent_blank 0) (lines_textLines longDoc.toList)
    (indent_blank 1) h
  have hline : '\n' ∉ List.replicate 1024 'a' := fun hc => by
    cases List.eq_of_mem_replicate hc
  have hlines : textLines longDoc.toList = List.replicate 1024 'a' :: textLines ['b'] := by
    unfold longDoc
    rw [String.toList_ofList, textLines_line hline]
  rw [hlines] at hfits
  have hroom := (hfits _ (List.mem_cons_self ..)).1
  rw [List.length_replicate] at hroom
  omega

end Sparsam.DocComments
