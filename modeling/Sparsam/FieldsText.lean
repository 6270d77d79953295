import Sparsam.Annotations
import Sparsam.DocComments

set_option autoImplicit false

/-!
# The text of FIELDS

What `generate_field_defns` prints, with its layout and the doc comments of the
members, is read as the literal that `generateFieldDefns` makes of the struct.
-/
namespace Sparsam.FieldsText
open ThriftTypes ThriftScope RubyNames SchemaLiteral RubyStrings RubyReader NumberFormat
open GeneratedText Annotations DocComments

/-- `type_to_enum`, for a type that is no typedef. -/
def typeToEnumText : ThriftType → Compile (List Char)
  | .baseType base _ =>
    match base with
    | .TYPE_VOID => failure "NO T_VOID CONSTRUCT"
    | .TYPE_STRING => pure "::Sparsam::Types::STRING".toList
    | .TYPE_BOOL => pure "::Sparsam::Types::BOOL".toList
    | .TYPE_BYTE => pure "::Sparsam::Types::BYTE".toList
    | .TYPE_I16 => pure "::Sparsam::Types::I16".toList
    | .TYPE_I32 => pure "::Sparsam::Types::I32".toList
    | .TYPE_I64 => pure "::Sparsam::Types::I64".toList
    | .TYPE_DOUBLE => pure "::Sparsam::Types::DOUBLE".toList
  | .enum _ => pure "::Sparsam::Types::I32".toList
  | .struct _ => pure "::Sparsam::Types::STRUCT".toList
  | .map _ _ => pure "::Sparsam::Types::MAP".toList
  | .set _ => pure "::Sparsam::Types::SET".toList
  | .list _ => pure "::Sparsam::Types::LIST".toList
  | .typedef _ symbolic _ | .forwardTypedef _ symbolic =>
    failure ("INVALID TYPE IN type_to_enum: " ++ symbolic)

/-- A symbol, its value and a comma, after the blanks that stand before them. -/
def entryText (blanks : List Char) (key : String) (value : List Char) : List Char :=
  blanks ++ (':' :: key.toList) ++ " => ".toList ++ value ++ ",\n".toList

section Emit
variable (scopes : String → Scope) (fuel : ℕ)

def nameText (depth : ℕ) (fieldName : String) : List Char :=
  if fieldName = "" then [] else entryText (indent depth) "name" (singleQuoted fieldName)

def defaultText (depth : ℕ) (type : ThriftType) : Option ConstValue → Compile (List Char)
  | none => pure []
  | some value => do
    pure (entryText (indent depth) "default" (← renderConstText scopes fuel depth type value))

/-- The entries of the type itself, of which only the class is indented. -/
def typeEntriesText (depth : ℕ) (nested : ThriftType → Compile (List Char)) :
    ThriftType → Compile (List Char)
  | .struct s => pure (entryText (indent depth) "class" (fullTypeName s.program s.name).toList)
  | .list e | .set e => do pure (entryText [] "element" (← nested e))
  | .map k v => do pure (entryText [] "key" (← nested k) ++ entryText [] "value" (← nested v))
  | .baseType _ isBinary => pure (if isBinary then entryText [] "binary" "true".toList else [])
  | _ => pure []

def optionalText (depth : ℕ) (optional : Bool) : List Char :=
  if optional then entryText (indent depth) "optional" "true".toList else []

/-- The comma stands behind an indentation of its own. -/
def enumEntryText (depth : ℕ) : ThriftType → List Char
  | .enum e =>
    entryText (indent depth) "enum_class" ((fullTypeName e.program e.name).toList ++ indent depth)
  | _ => []

def annotationsText (depth : ℕ) : Option (List (String × String)) → List Char
  | none => []
  | some annotations => generateFieldAnnotations depth annotations

/-- `generate_field_data` at this depth of indentation, its recursion at most `n` deep. -/
def generateFieldDataText : ℕ → ℕ → ThriftType → FieldArgs → Compile (List Char)
  | 0, _, _, _ => throw .outOfFuel
  | n + 1, depth, fieldType, args => do
    let fieldType ← getTrueType scopes fuel fieldType
    let ttype ← typeToEnumText fieldType
    let default ← defaultText scopes fuel (depth + 1) fieldType args.fieldValue
    let entries ←
      typeEntriesText (depth + 1) (fun t => generateFieldDataText n (depth + 1) t {}) fieldType
    pure ("\x7b\n".toList ++ (entryText (indent (depth + 1)) "type" ttype ++
      (nameText (depth + 1) args.fieldName ++ (default ++ (entries ++
        (optionalText (depth + 1) args.optional ++ (enumEntryText (depth + 1) fieldType ++
          annotationsText (depth + 1) args.annotations)))))) ++ indent depth ++ "\x7d".toList)

def fieldEntryText (depth : ℕ) (f : TField) : Compile (List Char) := do
  pure (generateRdoc depth 0 f.doc ++ (indent depth ++ formatInteger f.key.toInt) ++
    " => ".toList ++ (← generateFieldDataText scopes fuel fuel depth f.type (fieldArgs f)))

def generateFieldDefnsText (depth : ℕ) (tstruct : TStruct) : Compile (List Char) := do
  let entries ← tstruct.members.mapM (fieldEntryText scopes fuel (depth + 1))
  pure (indent depth ++ "FIELDS = ".toList ++ ("\x7b\n".toList ++
    (List.intercalate ",\n".toList entries ++ ['\n']) ++ indent depth ++ "\x7d".toList) ++
      "\n\n".toList)

end Emit

section Reading

/-- Every constant of the literal has a name that Ruby takes for one. -/
structure Named (l : Literal) : Prop where
  classes : ConstantsIn l.classes
  enums : ConstantsIn l.enumModules

def SpellsData (text : List Char) (l : Literal) : Prop :=
  Named l → SpellsClosed text (exprOf l)

/-- The text is read as these entries, and others may follow. -/
def SpellsFront (text : List Char) (es : List (Literal × Literal)) : Prop :=
  Named (.hash es) → Prepends text (entriesOf es)

theorem entriesOf_append (es es' : List (Literal × Literal)) :
    entriesOf (es ++ es') = entriesOf es ++ entriesOf es' := by
  induction es with
  | nil => rfl
  | cons e es ih =>
    obtain ⟨k, v⟩ := e
    simp only [List.cons_append, entriesOf, ih]

theorem Named.append {es es' : List (Literal × Literal)} (h : Named (.hash (es ++ es'))) :
    Named (.hash es) ∧ Named (.hash es') := by
  have hclasses : ConstantsIn (Literal.classesOfEntries (es ++ es')) := h.classes
  have henums : ConstantsIn (Literal.enumModulesOfEntries (es ++ es')) := h.enums
  rw [Literal.classesOfEntries_append] at hclasses
  rw [Literal.enumModulesOfEntries_append] at henums
  obtain ⟨hc, hc'⟩ := constantsIn_append.mp hclasses
  obtain ⟨he, he'⟩ := constantsIn_append.mp henums
  exact ⟨⟨hc, he⟩, ⟨hc', he'⟩⟩

theorem SpellsFront.append {a b : List Char} {es es' : List (Literal × Literal)}
    (ha : SpellsFront a es) (hb : SpellsFront b es') : SpellsFront (a ++ b) (es ++ es') := by
  intro hnamed
  obtain ⟨hes, hes'⟩ := hnamed.append
  rw [entriesOf_append]
  exact (ha hes).append (hb hes')

theorem spellsFront_nil : SpellsFront [] [] := fun _ => prepends_nil

theorem spellsFront_entry {blanks value : List Char} {l : Literal}
    (hblanks : ∀ c ∈ blanks, isSpace c = true) {key : String} (hkey : IsWord key.toList)
    (h : Named l → Spells value (exprOf l)) :
    SpellsFront (entryText blanks key value) [(.sym key, l)] := by
  intro hnamed
  have hclasses : ConstantsIn ([] ++ l.classes ++ []) := hnamed.classes
  have henums : ConstantsIn ([] ++ l.enumModules ++ []) := hnamed.enums
  rw [List.nil_append, List.append_nil] at hclasses henums
  exact prepends_entry ((spells_symbol hkey).indent hblanks) (h ⟨hclasses, henums⟩)

theorem spells_types (name : TypesName) :
    Spells ("::Sparsam::Types::".toList ++ name.text.toList) (exprOf (.types name)) := by
  have hwords : ∀ w ∈ ["Sparsam".toList, "Types".toList, name.text.toList], IsWord w := by
    cases name <;> decide
  have hspells := spells_const hwords (by simp)
  have htext : pathText ["Sparsam".toList, "Types".toList, name.text.toList] =
      "::Sparsam::Types::".toList ++ name.text.toList := by
    simp [pathText]
  rw [htext] at hspells
  exact hspells

theorem typeToEnumText_spells (t : ThriftType) :
    Both (fun text l => Spells text (exprOf l)) (typeToEnumText t) (typeToEnum t) := by
  cases t with
  | baseType base bin =>
    cases base with
    | TYPE_VOID => exact both_failure _
    | TYPE_STRING => exact spells_types .STRING
    | TYPE_BOOL => exact spells_types .BOOL
    | TYPE_BYTE => exact spells_types .BYTE
    | TYPE_I16 => exact spells_types .I16
    | TYPE_I32 => exact spells_types .I32
    | TYPE_I64 => exact spells_types .I64
    | TYPE_DOUBLE => exact spells_types .DOUBLE
  | enum e => exact spells_types .I32
  | struct s => exact spells_types .STRUCT
  | map k v => exact spells_types .MAP
  | set e => exact spells_types .SET
  | list e => exact spells_types .LIST
  | typedef p name t => exact both_failure _
  | forwardTypedef p name => exact both_failure _

theorem nameText_spells (depth : ℕ) {fieldName : String} (h : Inside quote fieldName.toList) :
    SpellsFront (nameText depth fieldName)
      (if fieldName = "" then [] else [(.sym "name", .quoted fieldName)]) := by
  unfold nameText
  split
  · exact spellsFront_nil
  · exact spellsFront_entry (indent_space depth) (by decide) fun _ => (spells_quoted h).spells

theorem spells_true : Spells "true".toList (exprOf (.bool true)) := (number_booleanText true).spells

theorem optionalText_spells (depth : ℕ) (optional : Bool) :
    SpellsFront (optionalText depth optional)
      (if optional then [(.sym "optional", .bool true)] else []) := by
  unfold optionalText
  split
  · exact spellsFront_entry (indent_space depth) (by decide) fun _ => spells_true
  · exact spellsFront_nil

theorem fullTypeName_spells {p : TProgram} {name : String}
    (h : ConstantsIn [constantPath p name]) :
    Spells (fullTypeName p name).toList (.const ((constantPath p name).map String.toList)) := by
  obtain ⟨hne, hwords⟩ := h.paths _ (List.mem_singleton_self _)
  rw [fullTypeName_toList]
  refine spells_const (List.forall_mem_map.mpr hwords) ?_
  rw [Ne, List.map_eq_nil_iff]
  exact hne

theorem enumEntryText_spells (depth : ℕ) (t : ThriftType) :
    SpellsFront (enumEntryText depth t) (enumEntry t) := by
  cases t with
  | enum e =>
    refine spellsFront_entry (indent_space depth) (by decide) fun hnamed => ?_
    exact (fullTypeName_spells hnamed.enums).blank
      (indent_space depth)
  | _ => exact spellsFront_nil

theorem entriesOf_quoted (annotations : List (String × String)) :
    entriesOf (annotations.map fun e => (Literal.quoted e.1, Literal.quoted e.2)) =
      quotedEntries annotations := by
  induction annotations with
  | nil => rfl
  | cons e annotations ih =>
    rw [List.map_cons, entriesOf, ih]
    rfl

theorem annotationsText_spells (depth : ℕ) {annotations : Option (List (String × String))}
    (h : ∀ es ∈ annotations, ∀ e ∈ es, Inside quote e.1.toList ∧ Inside quote e.2.toList) :
    SpellsFront (annotationsText depth annotations) (annotationsEntry annotations) := by
  cases annotations with
  | none => exact spellsFront_nil
  | some es =>
    have htext : annotationsText depth (some es) = entryText (indent depth) "annotations"
        ("\x7b\n".toList ++ entryLines (depth + 1) es ++ indent depth ++ "\x7d".toList) := by
      unfold annotationsText generateFieldAnnotations entryText
      simp only [List.append_assoc]
      rfl
    rw [htext]
    refine spellsFront_entry (indent_space depth) (by decide) fun _ => ?_
    unfold exprOf
    rw [entriesOf_quoted]
    exact ((entryLines_spells (depth + 1) (h es rfl)).hash (indent_space depth)).spells

section
variable {scopes : String → Scope} {fuel : ℕ}

theorem defaultText_spells (depth : ℕ) (t : ThriftType) (value : Option ConstValue) :
    Both SpellsFront (defaultText scopes fuel depth t value)
      (defaultEntry scopes fuel t value) := by
  cases value with
  | none => exact spellsFront_nil
  | some cv =>
    refine (renderConstText_spells cv depth t).bind fun text l hl => ?_
    exact spellsFront_entry (indent_space depth) (by decide) fun hnamed => hl hnamed.classes.paths

theorem typeEntriesText_spells (depth : ℕ) {nestedText : ThriftType → Compile (List Char)}
    {nested : ThriftType → Compile Literal} (h : ∀ t, Both SpellsData (nestedText t) (nested t))
    (t : ThriftType) :
    Both SpellsFront (typeEntriesText depth nestedText t) (typeEntries nested t) := by
  have hblanks : ∀ c ∈ ([] : List Char), isSpace c = true := by simp
  cases t with
  | struct s =>
    refine spellsFront_entry (indent_space depth) (by decide) fun hnamed => ?_
    exact fullTypeName_spells hnamed.classes
  | list e =>
    refine (h e).bind fun text l hl => ?_
    exact spellsFront_entry hblanks (by decide) fun hnamed => (hl hnamed).spells
  | set e =>
    refine (h e).bind fun text l hl => ?_
    exact spellsFront_entry hblanks (by decide) fun hnamed => (hl hnamed).spells
  | map k v =>
    refine (h k).bind fun ktext kl hkl => (h v).bind fun vtext vl hvl => ?_
    have hk : SpellsFront (entryText [] "key" ktext) [(.sym "key", kl)] :=
      spellsFront_entry hblanks (by decide) fun hnamed => (hkl hnamed).spells
    exact hk.append (spellsFront_entry hblanks (by decide) fun hnamed => (hvl hnamed).spells)
  | baseType base bin =>
    cases bin with
    | false => exact spellsFront_nil
    | true => exact spellsFront_entry hblanks (by decide) fun _ => spells_true
  | enum e | typedef p name t | forwardTypedef p name => exact spellsFront_nil

/-- The name and the annotations keep the quotes around them. -/
structure Quoted (args : FieldArgs) : Prop where
  name : Inside quote args.fieldName.toList
  annotations : ∀ es ∈ args.annotations, ∀ e ∈ es, Inside quote e.1.toList ∧ Inside quote e.2.toList

theorem generateFieldDataText_spells (n : ℕ) : ∀ (depth : ℕ) (t : ThriftType) {args : FieldArgs},
    Quoted args → Both SpellsData (generateFieldDataText scopes fuel n depth t args)
      (generateFieldData scopes fuel n t args) := by
  induction n with
  | zero => exact fun depth t args h => both_failure _
  | succ n ih =>
    intro depth t args h
    unfold generateFieldDataText generateFieldData
    refine (both_self (getTrueType scopes fuel t)).bind ?_
    rintro u _ rfl
    refine (typeToEnumText_spells u).bind fun ttext tl htype => ?_
    refine (defaultText_spells (depth + 1) u args.fieldValue).bind fun dtext dl hdefault => ?_
    have hplain : Quoted {} := ⟨inside_nil, by simp⟩
    have hnested := typeEntriesText_spells (depth + 1) (fun t => ih (depth + 1) t hplain) u
    refine hnested.bind fun etext el hentries => ?_
    have htype' : SpellsFront (entryText (indent (depth + 1)) "type" ttext) [(.sym "type", tl)] :=
      spellsFront_entry (indent_space _) (by decide) fun _ => htype
    have hfront := htype'.append ((nameText_spells (depth + 1) h.name).append (hdefault.append
      (hentries.append ((optionalText_spells (depth + 1) args.optional).append
        ((enumEntryText_spells (depth + 1) u).append
          (annotationsText_spells (depth + 1) h.annotations))))))
    intro hnamed
    simp only [List.append_assoc] at hnamed ⊢
    have hclosed := (hfront hnamed).entries.hash (indent_space depth)
    simp only [List.append_assoc] at hclosed
    exact hclosed

/-- A doc comment is no part of the literal, whatever its text is. -/
theorem docstringLoop_lexes {blanks : List Char} (hblanks : ∀ c ∈ blanks, isSpace c = true)
    (docs : InputStreams.Stream) : Lexes (docstringLoop blanks ['#', ' '] docs) [] := by
  fun_induction docstringLoop blanks ['#', ' '] docs with
  | case1 => exact lexes_nil
  | case2 docs hgo ih =>
    have hline : '\n' ∉ ' ' :: cString (docs.getline 1024).1 := by
      intro hmem
      rcases List.mem_cons.mp hmem with hmem | hmem
      · cases hmem
      · exact InputStreams.newline_not_mem_getline _ _ (mem_cString hmem)
    have hcomment := (lexes_spaces hblanks).append (lexes_comment hline)
    have hhead : Lexes (docstringLine blanks ['#', ' '] (cString (docs.getline 1024).1)
        (docs.getline 1024).2.eof) [] := by
      unfold docstringLine
      rw [if_neg (by simp)]
      split
      · exact hcomment
      · exact lexes_nil
    exact hhead.append ih

theorem generateRdoc_lexes (out depth : ℕ) (doc : Option String) :
    Lexes (generateRdoc out depth doc) [] := by
  have hblank : ∀ n, ∀ c ∈ indent n, isSpace c = true := by
    intro n c hc
    rw [indent_blank n c hc]
    rfl
  cases doc with
  | none => exact lexes_nil
  | some doc =>
    rw [generateRdoc_some]
    exact (lexes_spaces (hblank out)).append (docstringLoop_lexes (hblank depth) _)

def SpellsPair (text : List Char) (e : Literal × Literal) : Prop :=
  Named e.2 → ∃ k v, text = k ++ " => ".toList ++ v ∧ Spells k (exprOf e.1) ∧ Spells v (exprOf e.2)

theorem fieldEntryText_spells (depth : ℕ) {f : TField} (h : Quoted (fieldArgs f)) :
    Both SpellsPair (fieldEntryText scopes fuel depth f) (fieldEntry scopes fuel f) := by
  refine (generateFieldDataText_spells fuel depth f.type h).bind fun text l hl => ?_
  intro hnamed
  have hkey : Spells (formatInteger f.key.toInt) (exprOf (.int f.key.toInt)) :=
    (number_formatInteger _).spells
  exact ⟨_, _, rfl, (hkey.indent (indent_space depth)).after (generateRdoc_lexes depth 0 f.doc),
    (hl hnamed).spells⟩

theorem Named.cons {e : Literal × Literal} {es : List (Literal × Literal)}
    (h : Named (.hash (e :: es))) : Named e.2 ∧ Named (.hash es) := by
  have hclasses : ConstantsIn (e.1.classes ++ e.2.classes ++ Literal.classesOfEntries es) :=
    h.classes
  have henums : ConstantsIn (e.1.enumModules ++ e.2.enumModules ++
      Literal.enumModulesOfEntries es) := h.enums
  obtain ⟨hc, hc'⟩ := constantsIn_append.mp hclasses
  obtain ⟨he, he'⟩ := constantsIn_append.mp henums
  exact ⟨⟨(constantsIn_append.mp hc).2, (constantsIn_append.mp he).2⟩, ⟨hc', he'⟩⟩

theorem entries_spell {texts : List (List Char)} {es : List (Literal × Literal)}
    (h : List.Forall₂ SpellsPair texts es) (hnamed : Named (.hash es)) :
    SpellsEntries (List.intercalate ",\n".toList texts ++ ['\n']) (entriesOf es) := by
  induction h with
  | nil =>
    obtain ⟨toks, hlex, hparse⟩ := spellsEntries_nil
    exact ⟨toks, lexes_newline.append hlex, hparse⟩
  | @cons text e texts es hpair hrest ih =>
    obtain ⟨he, hes⟩ := hnamed.cons
    obtain ⟨k, v, rfl, hk, hv⟩ := hpair he
    cases hrest with
    | nil =>
      rw [List.intercalate_singleton]
      exact .last hk hv
    | @cons text' e' texts es hpair' hrest =>
      rw [List.intercalate_cons_cons, List.append_assoc]
      exact .cons hk hv (ih hes)

theorem both_mapM {α β γ : Type} {R : β → γ → Prop} {f : α → Compile β} {g : α → Compile γ}
    {xs : List α} (h : ∀ x ∈ xs, Both R (f x) (g x)) :
    Both (List.Forall₂ R) (xs.mapM f) (xs.mapM g) := by
  induction xs with
  | nil => exact .nil
  | cons x xs ih =>
    rw [List.mapM_cons, List.mapM_cons]
    refine (h x (by simp)).bind fun b c hbc => ?_
    refine (ih fun y hy => h y (by simp [hy])).bind fun bs cs hbs => ?_
    exact .cons hbc hbs

/-- The constant is one hash literal that is read as the literal of the struct. -/
def SpellsConstant (depth : ℕ) (text : List Char) (l : Literal) : Prop :=
  ∃ body, text = indent depth ++ "FIELDS = ".toList ++ body ++ "\n\n".toList ∧
    SpellsClosed body (exprOf l)

theorem generateFieldDefnsText_spells (depth : ℕ) {s : TStruct}
    (h : ∀ f ∈ s.members, Quoted (fieldArgs f)) :
    Both (fun text l => Named l → SpellsConstant depth text l)
      (generateFieldDefnsText scopes fuel depth s) (generateFieldDefns scopes fuel s) := by
  refine (both_mapM fun f hf => fieldEntryText_spells (depth + 1) (h f hf)).bind
    fun texts es hes => ?_
  exact fun hnamed => ⟨_, rfl, (entries_spell hes hnamed).hash (indent_space depth)⟩

end

end Reading

end Sparsam.FieldsText
