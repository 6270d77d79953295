import Sparsam.StringConstants

set_option autoImplicit false

/-!
# The annotations of structs and fields

Their values are pasted between single quotes as they are. A value is read back
when it has no single quote and every backslash in it stands before another
character than a backslash.
-/
namespace Sparsam.Annotations
open RubyStrings RubyReader GeneratedText StringConstants
open DocComments (indent)

def quote : Char := Char.ofNat 39

def singleQuoted (text : String) : List Char := quote :: (text.toList ++ [quote])

def entryLines (depth : ℕ) (annotations : List (String × String)) : List Char :=
  annotations.flatMap fun it =>
    indent depth ++ singleQuoted it.1 ++ " => ".toList ++ singleQuoted it.2 ++ ",\n".toList

/-- `generate_schema_annotations` -/
def generateSchemaAnnotations (depth : ℕ) (annotations : List (String × String)) : List Char :=
  indent depth ++ "ANNOTATIONS = \x7b\n".toList ++ entryLines (depth + 1) annotations ++
    indent depth ++ "\x7d\n\n".toList

/-- What `generate_field_data` prints of the annotations that it is given. -/
def generateFieldAnnotations (depth : ℕ) (annotations : List (String × String)) : List Char :=
  indent depth ++ ":annotations => \x7b\n".toList ++ entryLines (depth + 1) annotations ++
    indent depth ++ "\x7d,\n".toList

def denote : Expr → Option (List Char)
  | .string delim raw => some (unescape delim raw)
  | _ => none

/-- The text between `before` and `after` is one hash literal, whatever stands after it,
    and denotes the map. -/
def HoldsMap (before text after : List Char) (annotations : List (String × String)) : Prop :=
  ∃ literal entries, text = before ++ literal ++ after ∧ SpellsClosed literal (.hash entries) ∧
    entries.map (fun e => (denote e.1, denote e.2)) =
      annotations.map fun e => (some e.1.toList, some e.2.toList)

/-- Every value ends its literal where it ends itself, and both emitters print the map. -/
structure Survive (depth : ℕ) (annotations : List (String × String)) : Prop where
  values : ∀ e ∈ annotations, ReadsItself quote e.2.toList
  schema : HoldsMap (indent depth ++ "ANNOTATIONS = ".toList)
    (generateSchemaAnnotations depth annotations) "\n\n".toList annotations
  field : HoldsMap (indent depth ++ ":annotations => ".toList)
    (generateFieldAnnotations depth annotations) ",\n".toList annotations

theorem readsItself_word {w : List Char} (h : IsWord w) : ReadsItself quote w := by
  refine fun rest => readQuoted_literal (fun c hc => ?_) rest
  exact ⟨ne_of_word (h.2 c hc) (by decide), ne_of_word (h.2 c hc) (by decide)⟩

def quotedEntries (annotations : List (String × String)) : List (Expr × Expr) :=
  annotations.map fun e => (.string quote e.1.toList, .string quote e.2.toList)

theorem entryLines_spells {annotations : List (String × String)} (depth : ℕ)
    (h : ∀ e ∈ annotations, Inside quote e.1.toList ∧ Inside quote e.2.toList) :
    SpellsEntries (entryLines depth annotations) (quotedEntries annotations) := by
  induction annotations with
  | nil => exact spellsEntries_nil
  | cons e annotations ih =>
    obtain ⟨⟨hkey, hvalue⟩, hrest⟩ := List.forall_mem_cons.mp h
    have hk := (spells_quoted hkey).spells
    exact .cons (hk.indent (indent_space depth)) (spells_quoted hvalue).spells (ih hrest)

theorem denote_quotedEntries {annotations : List (String × String)}
    (h : ∀ e ∈ annotations, ReadsItself quote e.1.toList ∧ ReadsItself quote e.2.toList) :
    (quotedEntries annotations).map (fun e => (denote e.1, denote e.2)) =
      annotations.map fun e => (some e.1.toList, some e.2.toList) := by
  unfold quotedEntries
  rw [List.map_map]
  refine List.map_congr_left fun e he => ?_
  change (some (unescape quote e.1.toList), some (unescape quote e.2.toList)) = _
  rw [((h e he).1.inside (by decide)).2, ((h e he).2.inside (by decide)).2]

/-- An annotation map survives in both places exactly when none of its values has a single
    quote, two backslashes in a row or a backslash at its end. -/
theorem annotations_survive_iff {annotations : List (String × String)}
    (hkeys : ∀ e ∈ annotations, IsWord e.1.toList) (depth : ℕ) :
    Survive depth annotations ↔ ∀ e ∈ annotations, Quotable quote e.2.toList := by
  constructor
  · intro h e he
    exact (readsItself_iff (by decide) _).mp (h.values e he)
  · intro h
    have hself : ∀ e ∈ annotations, ReadsItself quote e.1.toList ∧ ReadsItself quote e.2.toList :=
      fun e he => ⟨readsItself_word (hkeys e he), (readsItself_iff (by decide) _).mpr (h e he)⟩
    have hinside : ∀ e ∈ annotations, Inside quote e.1.toList ∧ Inside quote e.2.toList :=
      fun e he => ⟨((hself e he).1.inside (by decide)).1, ((hself e he).2.inside (by decide)).1⟩
    have hliteral := (entryLines_spells (depth + 1) hinside).hash (indent_space depth)
    have hdenote := denote_quotedEntries hself
    refine ⟨fun e he => (hself e he).2, ⟨_, _, ?_, hliteral, hdenote⟩,
      ⟨_, _, ?_, hliteral, hdenote⟩⟩
    · unfold generateSchemaAnnotations
      simp only [List.append_assoc]
      rfl
    · unfold generateFieldAnnotations
      simp only [List.append_assoc]
      rfl

theorem owner_survives : Survive 1 [("owner", "search"), ("path", "C:\\dir")] ↔
    ∀ e ∈ [("owner", "search"), ("path", "C:\\dir")], Quotable quote e.2.toList :=
  annotations_survive_iff (by decide) 1

/-- A single quote ends the literal of its value. -/
theorem singleQuote_lost : tokLiteral '"' "it's\"".toList = .ok ("it's", []) ∧
    ¬ Survive 1 [("note", "it's")] ∧ ¬ ReadsItself quote "it's".toList ∧
      readQuoted quote ("it's".toList ++ "',\n".toList) = some ("it".toList, "s',\n".toList) := by
  have hself : ¬ ReadsItself quote "it's".toList := by
    rw [readsItself_iff (by decide)]
    simp [Quotable, quote]
  refine ⟨rfl, fun h => hself (h.values _ (List.mem_singleton.mpr rfl)), hself, rfl⟩

end Sparsam.Annotations
