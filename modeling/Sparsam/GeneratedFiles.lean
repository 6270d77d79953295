import Sparsam.EnumModules
import Sparsam.FieldsText
import Sparsam.ListPairing
import Sparsam.RequirePaths
import Sparsam.RubyFiles

set_option autoImplicit false

/-!
# The generated files

What the generator prints into the types file and into the constants file: the
header, the `require` lines, the modules of the namespace, and in them the enums
and the classes or the constants. Both files are read back as these statements.
-/
namespace Sparsam.GeneratedFiles
open ListPairing ThriftTypes FieldLists ThriftScope ThriftParser RubyNames SchemaLiteral
open RubyStrings RubyReader NumberFormat GeneratedText Annotations DocComments FieldsText
open RequirePaths RubyFiles
open RubyRuntime (Superclass)

/-- What the parser keeps of a definition for the generated text alone. -/
structure Decorations where
  /-- of the member of an enum at this place -/
  valueDoc : TEnum → ℕ → Option String := fun _ _ => none
  structDoc : TStruct → Option String := fun _ => none
  annotations : TStruct → List (String × String) := fun _ => []

/-- The lines of `rb_autogen_comment`, with the version that the build defines. -/
def autogenLines : List String :=
  ["", " Autogenerated by Thrift Compiler (0.1.1.sparsam.0.2.11)", "",
    " DO NOT EDIT UNLESS YOU ARE SURE THAT YOU KNOW WHAT YOU ARE DOING", ""]

def rbAutogenComment : List Char := autogenLines.flatMap fun line => '#' :: (line.toList ++ ['\n'])

/-- What `init_generator` prints into the types file before the modules. -/
def typesHeader (g : Generator) (includes : List TProgram) : List Char :=
  rbAutogenComment ++ ['\n'] ++ "require 'sparsam'\n".toList ++ renderIncludes g includes ++ ['\n']

def constsHeader (g : Generator) (p : TProgram) : List Char :=
  rbAutogenComment ++ ['\n'] ++ "require 'sparsam'\n".toList ++ (initGenerator g p).constsRequire ++
    ['\n']

/-- `begin_namespace`, at this depth of indentation. -/
def beginNamespace : ℕ → List String → List Char
  | _, [] => []
  | depth, m :: modules =>
    indent depth ++ "module ".toList ++ m.toList ++ ['\n'] ++ beginNamespace (depth + 1) modules

/-- The loop of `end_namespace` over the modules in reverse. -/
def endNamespace : ℕ → List String → List Char
  | _, [] => []
  | depth, _ :: modules =>
    indent (depth - 1) ++ "end\n".toList ++ endNamespace (depth - 1) modules

/-- The line of one member of an enum, after its comment. -/
def memberLine (depth : ℕ) (c : TEnumValue) : List Char :=
  indent depth ++ (capitalize c.name).toList ++ " = ".toList ++ formatInteger c.value.toInt ++
    ['\n']

def doubleQuotes (text : String) : List Char := '"' :: (text.toList ++ ['"'])

def generateEnumText (depth : ℕ) (d : Decorations) (tenum : TEnum) : List Char :=
  indent depth ++ "module ".toList ++ (capitalize tenum.name).toList ++ ['\n'] ++
    ((tenum.constants.zipIdx.flatMap fun c =>
        generateRdoc (depth + 1) 0 (d.valueDoc tenum c.2) ++ memberLine (depth + 1) c.1) ++
      (indent (depth + 1) ++ "VALUE_MAP = \x7b".toList ++
        List.intercalate ", ".toList (tenum.constants.map fun c =>
          formatInteger c.value.toInt ++ " => ".toList ++ doubleQuotes (capitalize c.name)) ++
        "\x7d\n".toList) ++
      (indent (depth + 1) ++ "INVERTED_VALUE_MAP = \x7b".toList ++
        List.intercalate ", ".toList (tenum.constants.map fun c =>
          doubleQuotes (capitalize c.name) ++ " => ".toList ++ formatInteger c.value.toInt) ++
        "\x7d\n".toList) ++
      (indent (depth + 1) ++ "VALID_VALUES = Set.new([".toList ++
        List.intercalate ", ".toList (tenum.constants.map fun c => (capitalize c.name).toList) ++
        "]).freeze\n".toList)) ++
    indent depth ++ "end\n".toList ++ ['\n']

def superclassText (tstruct : TStruct) : List Char :=
  if tstruct.isUnion then "::Sparsam::Union".toList
  else if tstruct.isXception then "::Sparsam::ApplicationException".toList
  else "::Sparsam::Struct".toList

section Emit
variable (scopes : String → Scope) (fuel : ℕ)

def generateRbStructText (depth : ℕ) (d : Decorations) (tstruct : TStruct) :
    Compile (List Char) := do
  let fields ← generateFieldDefnsText scopes fuel (depth + 1) tstruct
  pure (generateRdoc depth 0 (d.structDoc tstruct) ++ (indent depth ++ "class ".toList ++
    (capitalize tstruct.name).toList ++ " < ".toList ++ superclassText tstruct ++ ['\n'] ++
    (fields ++ generateSchemaAnnotations (depth + 1) (d.annotations tstruct) ++
      (indent (depth + 1) ++ "init_thrift_struct(self)\n".toList)) ++
    indent depth ++ "end\n".toList) ++ ['\n'])

def generateConstText (depth : ℕ) (tconst : TConst) : Compile (List Char) := do
  let value ← renderConstText scopes fuel depth tconst.type tconst.value
  pure (indent depth ++ (capitalize tconst.name).toList ++ " = ".toList ++ value ++ ['\n'] ++
    ['\n'])

/-- The two files of a program. -/
structure Output where
  types : List Char
  consts : List Char

/-- `generate_program`, which writes both files. -/
def generateProgramText (g : Generator) (d : Decorations) (includes : List TProgram)
    (p : Program) : Compile Output := do
  let modules := rubyModules p.info
  let objects ← p.objects.mapM (generateRbStructText scopes fuel modules.length d)
  let consts ← p.consts.mapM (generateConstText scopes fuel modules.length)
  pure {
    types := typesHeader g includes ++ (beginNamespace 0 modules ++
      (p.enums.flatMap (generateEnumText modules.length d) ++ objects.flatten) ++
      endNamespace modules.length modules.reverse)
    consts := constsHeader g p.info ++ (beginNamespace 0 modules ++ consts.flatten ++
      endNamespace modules.length modules.reverse) }

end Emit

section Meaning

/-- The statement that Ruby reads for one of an enum. -/
def enumStatement : EnumModules.Statement → Statement
  | .assign name value => .assign name.toList (.word (formatInteger value))
  | .valueMap es => .assign "VALUE_MAP".toList
      (.hash (es.map fun e => (.word (formatInteger e.1), .string '"' e.2.toList)))
  | .invertedValueMap es => .assign "INVERTED_VALUE_MAP".toList
      (.hash (es.map fun e => (.string '"' e.1.toList, .word (formatInteger e.2))))
  | .validValues names => .assignFrozen "VALID_VALUES".toList
      (.set (names.map fun name => .word name.toList))

def enumModule (tenum : TEnum) : Statement :=
  .moduleDef (EnumModules.generateEnum tenum).name.toList
    ((EnumModules.generateEnum tenum).body.map enumStatement)

def superclassPath : Superclass → List (List Char)
  | .union => ["Sparsam".toList, "Union".toList]
  | .applicationException => ["Sparsam".toList, "ApplicationException".toList]
  | .struct => ["Sparsam".toList, "Struct".toList]

/-- The class of a struct with its two constants. -/
def classDefinition (d : Decorations) (tstruct : TStruct) (c : ClassStatement) : Statement :=
  .classDef (capitalize tstruct.name).toList (superclassPath c.superclass)
    [.assign "FIELDS".toList (exprOf c.fields),
      .assign "ANNOTATIONS".toList (.hash (quotedEntries (d.annotations tstruct))),
      .call "init_thrift_struct".toList "self".toList]

def inModules : List String → List Statement → List Statement
  | [], body => body
  | m :: modules, body => [.moduleDef m.toList (inModules modules body)]

def constDefinition (tconst : TConst) (l : Literal) : Statement :=
  .assign (capitalize tconst.name).toList (exprOf l)

end Meaning

section Names

theorem isUpper_of_bounds {c : Char} (hlo : 65 ≤ c.val.toNat) (hhi : c.val.toNat ≤ 90) :
    c.isUpper = true := by
  refine decide_eq_true ⟨?_, ?_⟩
  · exact hlo
  · exact hhi

theorem toUpper_cases (c : Char) :
    c.toUpper.isUpper = true ∨ (c.isLower = false ∧ c.toUpper = c) := by
  by_cases h : 'a'.val ≤ c.val ∧ c.val ≤ 'z'.val
  · have hlo : 97 ≤ c.val.toNat := h.1
    have hhi : c.val.toNat ≤ 122 := h.2
    have hval : c.toUpper.val = c.val + ('A'.val - 'a'.val) := by
      unfold Char.toUpper
      rw [dif_pos h]
    have hoffset : ('A'.val - 'a'.val).toNat = 4294967264 := by decide
    have hnat : c.toUpper.val.toNat = c.val.toNat - 32 := by
      rw [hval, UInt32.toNat_add, hoffset]
      omega
    exact .inl (isUpper_of_bounds (by omega) (by omega))
  · refine .inr ⟨?_, ?_⟩
    · refine Bool.eq_false_iff.mpr fun hlower => h ?_
      obtain ⟨hlo, hhi⟩ := Bool.and_eq_true_iff.mp hlower
      exact ⟨of_decide_eq_true hlo, of_decide_eq_true hhi⟩
    · unfold Char.toUpper
      rw [dif_neg h]

/-- With its first letter in upper case it is a constant or a local variable. -/
def IsName (name : String) : Prop := nameKind (capitalize name).toList ≠ .other

theorem capitalize_chars {name : String} (h : IsName name) : ∃ c cs,
    (capitalize name).toList = c :: cs ∧ c.isLower = false ∧
      ∀ d ∈ c :: cs, d.isAlphanum = true ∨ d = '_' := by
  obtain ⟨hne, hchars⟩ := chars_of_nameKind h
  unfold capitalize at hne hchars ⊢
  rw [String.toList_ofList] at hne hchars ⊢
  cases hname : name.toList with
  | nil =>
    rw [hname] at hne
    exact absurd rfl hne
  | cons c cs =>
    rw [hname] at hchars
    have hdisjoint : ∀ d : Char, d.isUpper = true → d.isLower = false := by
      intro d hupper
      replace hupper : d.val ≥ 'A'.val ∧ d.val ≤ 'Z'.val := of_decide_eq_true hupper
      have hhi : d.val.toNat ≤ 90 := hupper.2
      refine Bool.eq_false_iff.mpr fun hlower => ?_
      obtain ⟨hlo, -⟩ := Bool.and_eq_true_iff.mp hlower
      have hlo' : 97 ≤ d.val.toNat := of_decide_eq_true hlo
      omega
    refine ⟨c.toUpper, cs, rfl, ?_, fun d hd => ?_⟩
    · rcases toUpper_cases c with hupper | ⟨hlower, heq⟩
      · exact hdisjoint _ hupper
      · rw [heq]
        exact hlower
    · have hchar := hchars d hd
      unfold isNameChar at hchar
      rw [Bool.or_eq_true, beq_iff_eq] at hchar
      exact hchar

theorem capitalize_word {name : String} (h : IsName name) : IsWord (capitalize name).toList := by
  obtain ⟨c, cs, heq, -, hchars⟩ := capitalize_chars h
  rw [heq]
  refine ⟨by simp, fun d hd => ?_⟩
  unfold isWordChar
  rcases hchars d hd with hd | rfl
  · rw [hd]
    rfl
  · decide

theorem capitalize_not_keyword {name : String} (h : IsName name) :
    (capitalize name).toList ∉ keywords := by
  obtain ⟨c, cs, heq, hlower, -⟩ := capitalize_chars h
  have hkeywords : ∀ w ∈ keywords, w.head?.all Char.isLower = true := by decide
  intro hmem
  have hfirst := hkeywords _ hmem
  rw [heq] at hfirst
  rw [show c.isLower = true from hfirst] at hlower
  cases hlower

theorem capitalize_not_set {name : String} (h : IsName name) :
    (capitalize name).toList ≠ "Set.new".toList := by
  obtain ⟨c, cs, heq, -, hchars⟩ := capitalize_chars h
  rw [heq]
  intro hset
  have hdot := hchars '.' (hset ▸ by decide)
  revert hdot
  decide

end Names

section Pieces

theorem prints_flatMap {α : Type} {f : α → List Char} {g : α → Statement} {xs : List α}
    (h : ∀ x ∈ xs, Prints (f x) [g x]) : Prints (xs.flatMap f) (xs.map g) := by
  induction xs with
  | nil => exact prints_nil
  | cons x xs ih =>
    obtain ⟨hx, hxs⟩ := List.forall_mem_cons.mp h
    rw [List.flatMap_cons, List.map_cons, ← List.singleton_append]
    exact hx.append (ih hxs)

theorem docstringLoop_blank {blanks : List Char} (hblanks : ∀ c ∈ blanks, c = ' ')
    (docs : InputStreams.Stream) : Blank (docstringLoop blanks ['#', ' '] docs) := by
  have hnil : Blank [] := ⟨0, lines_nil⟩
  fun_induction docstringLoop blanks ['#', ' '] docs with
  | case1 => exact hnil
  | case2 docs hgo ih =>
    have hline : '\n' ∉ ' ' :: cString (docs.getline 1024).1 := by
      intro hmem
      rcases List.mem_cons.mp hmem with hmem | hmem
      · cases hmem
      · exact InputStreams.newline_not_mem_getline _ _ (mem_cString hmem)
    have hhead : Blank (docstringLine blanks ['#', ' '] (cString (docs.getline 1024).1)
        (docs.getline 1024).2.eof) := by
      unfold docstringLine
      rw [if_neg (by simp)]
      split
      · exact (blank_indent hblanks).append (blank_comment hline)
      · exact hnil
    exact hhead.append ih

theorem generateRdoc_blank (out depth : ℕ) (doc : Option String) :
    Blank (generateRdoc out depth doc) := by
  cases doc with
  | none => exact ⟨0, lines_nil⟩
  | some doc =>
    rw [generateRdoc_some]
    exact (blank_indent (indent_blank out)).append
      (docstringLoop_blank (indent_blank depth) _)

theorem number_value {w : List Char} (h : Number w) : Value w (.word w) := by
  refine value_word h.isWord ?_
  rintro rfl
  exact (h.2 'S' (by decide)).2 rfl

theorem name_value {name : String} (h : IsName name) :
    Value (capitalize name).toList (.word (capitalize name).toList) :=
  value_word (capitalize_word h) (capitalize_not_set h)

theorem doubleQuotes_value {name : String} (h : IsName name) :
    Value (doubleQuotes (capitalize name)) (.string '"' (capitalize name).toList) :=
  (value_doubleQuoted (capitalize_word h).2).value

end Pieces

section Enums
variable (d : Decorations) {tenum : TEnum}

theorem memberLine_writes (depth : ℕ) {c : TEnumValue} (h : IsName c.name) :
    Writes (memberLine depth c)
      (enumStatement (.assign (capitalize c.name) c.value.toInt)) :=
  assign_writes (indent_blank depth) (capitalize_word h) (capitalize_not_keyword h)
    (number_value (number_formatInteger _))

theorem members_print (depth : ℕ) (h : ∀ c ∈ tenum.constants, IsName c.name) :
    Prints (tenum.constants.zipIdx.flatMap fun c =>
        generateRdoc depth 0 (d.valueDoc tenum c.2) ++ memberLine depth c.1)
      (tenum.constants.map fun c =>
        enumStatement (.assign (capitalize c.name) c.value.toInt)) := by
  have hmap : (tenum.constants.map fun c =>
      enumStatement (.assign (capitalize c.name) c.value.toInt)) = tenum.constants.zipIdx.map
        fun c => enumStatement (.assign (capitalize c.1.name) c.1.value.toInt) := by
    conv_lhs => rw [← List.zipIdx_map_fst 0 tenum.constants, List.map_map]
    rfl
  rw [hmap]
  refine prints_flatMap fun c hc => ?_
  have hmember := memberLine_writes depth (h _ (List.fst_mem_of_mem_zipIdx hc))
  exact (generateRdoc_blank _ _ _).prints.append hmember.prints

theorem valueMap_writes (depth : ℕ) (h : ∀ c ∈ tenum.constants, IsName c.name) :
    Writes (indent depth ++ "VALUE_MAP = \x7b".toList ++
        List.intercalate ", ".toList (tenum.constants.map fun c =>
          formatInteger c.value.toInt ++ " => ".toList ++ doubleQuotes (capitalize c.name)) ++
        "\x7d\n".toList)
      (enumStatement (.valueMap (tenum.constants.map fun c =>
        (c.value.toInt, capitalize c.name)))) := by
  have hpairs : ∀ c ∈ tenum.constants, ValuePair
      (formatInteger c.value.toInt ++ " => ".toList ++ doubleQuotes (capitalize c.name))
      (.word (formatInteger c.value.toInt), .string '"' (capitalize c.name).toList) := fun c hc =>
    ⟨_, _, rfl, number_value (number_formatInteger _), doubleQuotes_value (h c hc)⟩
  have hword : IsWord "VALUE_MAP".toList := by decide
  have hassign := assign_writes (indent_blank depth) hword (by decide)
    (inline_hash (forall₂_maps.mpr hpairs)).value
  have hopen : "VALUE_MAP = \x7b".toList =
      "VALUE_MAP".toList ++ " = ".toList ++ "\x7b".toList := rfl
  have hclose : "\x7d\n".toList = "\x7d".toList ++ ['\n'] := rfl
  unfold enumStatement
  dsimp only
  rw [List.map_map, hopen, hclose]
  simp only [List.append_assoc] at hassign ⊢
  exact hassign

theorem invertedValueMap_writes (depth : ℕ) (h : ∀ c ∈ tenum.constants, IsName c.name) :
    Writes (indent depth ++ "INVERTED_VALUE_MAP = \x7b".toList ++
        List.intercalate ", ".toList (tenum.constants.map fun c =>
          doubleQuotes (capitalize c.name) ++ " => ".toList ++ formatInteger c.value.toInt) ++
        "\x7d\n".toList)
      (enumStatement (.invertedValueMap (tenum.constants.map fun c =>
        (capitalize c.name, c.value.toInt)))) := by
  have hpairs : ∀ c ∈ tenum.constants, ValuePair
      (doubleQuotes (capitalize c.name) ++ " => ".toList ++ formatInteger c.value.toInt)
      (.string '"' (capitalize c.name).toList, .word (formatInteger c.value.toInt)) := fun c hc =>
    ⟨_, _, rfl, doubleQuotes_value (h c hc), number_value (number_formatInteger _)⟩
  have hword : IsWord "INVERTED_VALUE_MAP".toList := by decide
  have hassign := assign_writes (indent_blank depth) hword (by decide)
    (inline_hash (forall₂_maps.mpr hpairs)).value
  have hopen : "INVERTED_VALUE_MAP = \x7b".toList =
      "INVERTED_VALUE_MAP".toList ++ " = ".toList ++ "\x7b".toList := rfl
  have hclose : "\x7d\n".toList = "\x7d".toList ++ ['\n'] := rfl
  unfold enumStatement
  dsimp only
  rw [List.map_map, hopen, hclose]
  simp only [List.append_assoc] at hassign ⊢
  exact hassign

theorem validValues_writes (depth : ℕ) (h : ∀ c ∈ tenum.constants, IsName c.name) :
    Writes (indent depth ++ "VALID_VALUES = Set.new([".toList ++
        List.intercalate ", ".toList (tenum.constants.map fun c => (capitalize c.name).toList) ++
        "]).freeze\n".toList)
      (enumStatement (.validValues (tenum.constants.map fun c => capitalize c.name))) := by
  have hnames : ∀ c ∈ tenum.constants,
      Value (capitalize c.name).toList (.word (capitalize c.name).toList) :=
    fun c hc => name_value (h c hc)
  have hword : IsWord "VALID_VALUES".toList := by decide
  have hassign := assignFrozen_writes (indent_blank depth) hword (by decide)
    (inline_set (forall₂_maps.mpr hnames))
  have hopen : "VALID_VALUES = Set.new([".toList =
      "VALID_VALUES".toList ++ " = ".toList ++ "Set.new([".toList := rfl
  have hclose : "]).freeze\n".toList = "])".toList ++ ".freeze\n".toList := rfl
  unfold enumStatement
  dsimp only
  rw [List.map_map, hopen, hclose]
  simp only [List.append_assoc] at hassign ⊢
  exact hassign

theorem enum_prints (depth : ℕ) (hname : isConstantName (capitalize tenum.name).toList = true)
    (h : ∀ c ∈ tenum.constants, IsName c.name) :
    Prints (generateEnumText depth d tenum) [enumModule tenum] := by
  have hbody := (((members_print d (depth + 1) h).append
    (valueMap_writes (depth + 1) h).prints).append
      (invertedValueMap_writes (depth + 1) h).prints).append
        (validValues_writes (depth + 1) h).prints
  have hmodule := (module_writes (indent_blank depth) hname hbody).prints.append
    blank_newline.prints
  have hstatements : (EnumModules.generateEnum tenum).body.map enumStatement =
      (tenum.constants.map fun c => enumStatement (.assign (capitalize c.name) c.value.toInt)) ++
        [enumStatement (.valueMap (tenum.constants.map fun c =>
          (c.value.toInt, capitalize c.name)))] ++
        [enumStatement (.invertedValueMap (tenum.constants.map fun c =>
          (capitalize c.name, c.value.toInt)))] ++
        [enumStatement (.validValues (tenum.constants.map fun c => capitalize c.name))] := by
    unfold EnumModules.generateEnum
    dsimp only
    rw [List.map_append, List.map_map, List.append_assoc, List.append_assoc]
    rfl
  unfold enumModule generateEnumText
  rw [hstatements]
  rw [List.append_nil] at hmodule
  exact hmodule

end Enums

section Values
variable {scopes : String → Scope} {fuel : ℕ}

def ValueOf (text : List Char) (l : Literal) : Prop := PathsIn l.classes → Value text (exprOf l)

theorem renderBaseText_value (base : TBase) (cv : ConstValue) :
    Both ValueOf (renderBaseText base cv) (renderBase base cv) := by
  have hinteger : Both ValueOf (do pure (formatInteger (← cv.getInteger).toInt))
      (do pure (.int (← cv.getInteger).toInt)) := by
    refine (both_self cv.getInteger).bind ?_
    rintro n _ rfl
    exact fun _ => number_value (number_formatInteger _)
  cases base with
  | TYPE_VOID => exact both_failure _
  | TYPE_STRING => exact fun _ => (value_percentQ (escapeString_inside _)).value
  | TYPE_BOOL =>
    refine (both_self cv.getInteger).bind ?_
    rintro n _ rfl
    exact fun _ => number_value (number_booleanText _)
  | TYPE_BYTE | TYPE_I16 | TYPE_I32 | TYPE_I64 => exact hinteger
  | TYPE_DOUBLE =>
    unfold renderBaseText renderBase
    dsimp only
    split
    · exact hinteger
    · exact fun _ => number_value (number_formatDouble _)

theorem renderConstText_value (depth : ℕ) (t : ThriftType) (cv : ConstValue) :
    Both ValueOf (renderConstText scopes fuel depth t cv) (renderConstValue scopes fuel t cv) := by
  obtain ⟨vt, es, xs, str, n, d, i, tenum⟩ := cv
  unfold renderConstText renderConstValue
  refine (both_self (getTrueType scopes fuel t)).bind ?_
  rintro u _ rfl
  have hspells : ∀ {v : ConstValue}, ∀ depth t, Both SpellsLiteral
      (renderConstText scopes fuel depth t v) (renderConstValue scopes fuel t v) :=
    fun {v} => renderConstText_spells v
  cases u with
  | baseType base bin => exact renderBaseText_value base _
  | enum e =>
    refine (both_self (ConstValue.getInteger _)).bind ?_
    rintro m _ rfl
    exact fun _ => (number_value (number_formatInteger _)).indent (indent_blank depth)
  | struct s =>
    refine (renderFieldsText_spells (depth + 1) fun e _ => hspells (depth + 1)).bind
      fun text ls hls => ?_
    intro hpaths
    obtain ⟨hpath, hrest⟩ := List.forall_mem_cons.mp hpaths
    have hsplit : (constantPath s.program s.name).map String.toList =
        (rubyModules s.program).map String.toList ++ [(capitalize s.name).toList] := by
      unfold constantPath
      rw [List.map_append, List.map_singleton]
    have hwords : ∀ w ∈ (constantPath s.program s.name).map String.toList, IsWord w :=
      List.forall_mem_map.mpr hpath.2
    change Value _ (.new ((constantPath s.program s.name).map String.toList) (entriesOf ls))
    rw [fullTypeName_toList]
    rw [hsplit] at hwords ⊢
    exact (value_new (hls hrest) (indent_space depth) hwords).value
  | map k v =>
    refine (renderEntriesText_spells (depth + 1) fun e _ =>
      ⟨hspells (depth + 1), hspells (depth + 1)⟩).bind fun text ls hls => ?_
    exact fun hpaths => (value_hash (hls hpaths) (indent_space depth)).value
  | list elem =>
    refine (renderElemsText_spells (depth + 1) fun x _ => hspells _ _).bind fun text ls hls => ?_
    exact fun hpaths => (value_array (hls hpaths) (indent_space depth)).value
  | set elem =>
    refine (renderElemsText_spells (depth + 1) fun x _ => hspells _ _).bind fun text ls hls => ?_
    exact fun hpaths => (value_set (hls hpaths) (indent_space depth)).value
  | typedef p name t => exact both_failure _
  | forwardTypedef p name => exact both_failure _

theorem generateConstText_prints (depth : ℕ) {c : TConst} (h : IsName c.name) :
    Both (fun text l => PathsIn l.classes → Prints text [constDefinition c l])
      (generateConstText scopes fuel depth c) (renderConstValue scopes fuel c.type c.value) := by
  rw [← bind_pure (renderConstValue scopes fuel c.type c.value)]
  refine (renderConstText_value depth c.type c.value).bind fun text l hl hpaths => ?_
  have hassign := assign_writes (indent_blank depth) (capitalize_word h) (capitalize_not_keyword h)
    (hl hpaths)
  exact hassign.prints.append blank_newline.prints

theorem fields_print (depth : ℕ) {s : TStruct} (h : ∀ f ∈ s.members, Quoted (fieldArgs f)) :
    Both (fun text l => Named l → Prints text [.assign "FIELDS".toList (exprOf l)])
      (generateFieldDefnsText scopes fuel depth s) (generateFieldDefns scopes fuel s) := by
  refine (both_mapM fun f hf => fieldEntryText_spells (depth + 1) (h f hf)).bind
    fun texts es hes hnamed => ?_
  have hvalue := value_hash (entries_spell hes hnamed) (indent_space depth)
  have hword : IsWord "FIELDS".toList := by decide
  have hassign := (assign_writes (indent_blank depth) hword (by decide) hvalue.value).prints.append
    blank_newline.prints
  have hopen : "FIELDS = ".toList = "FIELDS".toList ++ " = ".toList := rfl
  have hclose : "\n\n".toList = ['\n'] ++ ['\n'] := rfl
  rw [hopen, hclose]
  simp only [List.append_assoc] at hassign ⊢
  exact hassign

theorem annotations_print (depth : ℕ) {annotations : List (String × String)}
    (h : ∀ e ∈ annotations, Inside quote e.1.toList ∧ Inside quote e.2.toList) :
    Prints (generateSchemaAnnotations depth annotations)
      [.assign "ANNOTATIONS".toList (.hash (quotedEntries annotations))] := by
  have hvalue := value_hash (entryLines_spells (depth + 1) h) (indent_space depth)
  have hword : IsWord "ANNOTATIONS".toList := by decide
  have hassign := (assign_writes (indent_blank depth) hword (by decide) hvalue.value).prints.append
    blank_newline.prints
  have hopen : "ANNOTATIONS = \x7b\n".toList =
      "ANNOTATIONS".toList ++ " = ".toList ++ "\x7b\n".toList := rfl
  have hclose : "\x7d\n\n".toList = "\x7d".toList ++ ['\n'] ++ ['\n'] := rfl
  unfold generateSchemaAnnotations
  rw [hopen, hclose]
  simp only [List.append_assoc] at hassign ⊢
  exact hassign

end Values

section Whole
variable {scopes : String → Scope} {fuel : ℕ}

/-- The names and the annotations that the text of a program can hold. -/
structure Readable (d : Decorations) (p : Program) : Prop where
  modules : ∀ m ∈ rubyModules p.info, isConstantName m.toList = true
  enums : ∀ e ∈ p.enums, isConstantName (capitalize e.name).toList = true ∧
    ∀ c ∈ e.constants, IsName c.name
  objects : ∀ s ∈ p.objects, isConstantName (capitalize s.name).toList = true ∧
    (∀ f ∈ s.members, Quoted (fieldArgs f)) ∧
    ∀ e ∈ d.annotations s, Inside quote e.1.toList ∧ Inside quote e.2.toList
  consts : ∀ c ∈ p.consts, IsName c.name

theorem superclassText_eq (s : TStruct) : ∃ v path, superclassPath
    (if s.isUnion then .union else if s.isXception then .applicationException else .struct) =
      v :: path ∧ superclassText s = pathText (v :: path) ∧ ∀ w ∈ v :: path, IsWord w := by
  unfold superclassText
  split
  · exact ⟨_, _, rfl, rfl, by decide⟩
  split
  · exact ⟨_, _, rfl, rfl, by decide⟩
  · exact ⟨_, _, rfl, rfl, by decide⟩

theorem generateRbStructText_prints (depth : ℕ) (d : Decorations) (info : TProgram) {s : TStruct}
    (hname : isConstantName (capitalize s.name).toList = true)
    (hfields : ∀ f ∈ s.members, Quoted (fieldArgs f))
    (hannotations : ∀ e ∈ d.annotations s, Inside quote e.1.toList ∧ Inside quote e.2.toList) :
    Both (fun text c => Named c.fields → Prints text [classDefinition d s c])
      (generateRbStructText scopes fuel depth d s) (generateRbStruct scopes fuel info s) := by
  refine (fields_print (depth + 1) hfields).bind fun text l hl hnamed => ?_
  have hmethod : IsWord "init_thrift_struct".toList := by decide
  have hself : IsWord "self".toList := by decide
  have hcall := call_writes (indent_blank (depth + 1)) hmethod (by decide) hself
  have hconstants := (hl hnamed).append (annotations_print (depth + 1) hannotations)
  have hbody := hconstants.append hcall.prints
  obtain ⟨v, path, hsuper, htext, hpath⟩ := superclassText_eq s
  have hclass := class_writes (indent_blank depth) hname hpath hbody
  have hdoc := (generateRdoc_blank depth 0 (d.structDoc s)).prints
  have hall := (hdoc.append hclass.prints).append blank_newline.prints
  have hline : "init_thrift_struct(self)\n".toList =
      "init_thrift_struct".toList ++ "(".toList ++ "self".toList ++ ")\n".toList := rfl
  unfold classDefinition
  rw [htext, hsuper, hline]
  simp only [List.append_assoc] at hall ⊢
  exact hall

theorem prints_mapM {α γ : Type} {f : α → Compile (List Char)} {h : α → Compile γ} {P : γ → Prop}
    {statement : α → γ → Statement} {xs : List α}
    (hboth : ∀ x ∈ xs, Both (fun text c => P c → Prints text [statement x c]) (f x) (h x)) :
    Both (fun texts cs => (∀ c ∈ cs, P c) → Prints texts.flatten (List.zipWith statement xs cs))
      (xs.mapM f) (xs.mapM h) := by
  induction xs with
  | nil => exact fun _ => prints_nil
  | cons x xs ih =>
    rw [List.mapM_cons, List.mapM_cons]
    refine (hboth x (by simp)).bind fun text c hc => ?_
    refine (ih fun y hy => hboth y (by simp [hy])).bind fun texts cs hcs hall => ?_
    obtain ⟨hfirst, hrest⟩ := List.forall_mem_cons.mp hall
    exact (hc hfirst).append (hcs hrest)

theorem endNamespace_append (depth : ℕ) (ms : List String) (m : String) :
    endNamespace depth (ms ++ [m]) =
      endNamespace depth ms ++ (indent (depth - ms.length - 1) ++ "end\n".toList) := by
  induction ms generalizing depth with
  | nil =>
    change _ ++ [] = _
    rw [List.append_nil]
    rfl
  | cons n ms ih =>
    change indent (depth - 1) ++ "end\n".toList ++ endNamespace (depth - 1) (ms ++ [m]) =
      indent (depth - 1) ++ "end\n".toList ++ endNamespace (depth - 1) ms ++ _
    rw [ih, List.length_cons, List.append_assoc _ (endNamespace _ _)]
    congr 4
    omega

theorem namespace_prints {modules : List String} (h : ∀ m ∈ modules, isConstantName m.toList = true)
    {body : List Char} {ss : List Statement} (hbody : Prints body ss) (depth : ℕ) :
    Prints (beginNamespace depth modules ++ body ++
      endNamespace (depth + modules.length) modules.reverse) (inModules modules ss) := by
  induction modules generalizing depth with
  | nil =>
    change Prints ([] ++ body ++ []) ss
    rw [List.append_nil]
    exact hbody
  | cons m modules ih =>
    obtain ⟨hm, hmodules⟩ := List.forall_mem_cons.mp h
    have hinner := ih hmodules (depth + 1)
    have hmodule := (module_writes (indent_blank depth) hm hinner).prints
    have hdepth : depth + (modules.length + 1) - modules.reverse.length - 1 = depth := by
      rw [List.length_reverse]
      omega
    have hlength : depth + 1 + modules.length = depth + (modules.length + 1) := by omega
    rw [List.reverse_cons, List.length_cons, endNamespace_append, hdepth]
    rw [hlength] at hmodule
    unfold beginNamespace inModules
    simp only [List.append_assoc] at hmodule ⊢
    exact hmodule

theorem autogen_blank : Blank rbAutogenComment := by
  have hlines : ∀ line ∈ autogenLines, '\n' ∉ line.toList := by decide
  unfold rbAutogenComment
  generalize autogenLines = lines at hlines ⊢
  induction lines with
  | nil => exact ⟨0, lines_nil⟩
  | cons line lines ih =>
    obtain ⟨hline, hrest⟩ := List.forall_mem_cons.mp hlines
    exact (blank_comment hline).append (ih hrest)

theorem inside_plain {s : List Char} (h : Plain s) : Inside (Char.ofNat 39) s := by
  induction s with
  | nil => exact inside_nil
  | cons c s ih =>
    obtain ⟨hc, hs⟩ := List.forall_mem_cons.mp h
    exact (ih hs).cons hc.1 hc.2

theorem sparsam_required : Writes "require 'sparsam'\n".toList (.require "sparsam".toList) := by
  have hplain : Plain "sparsam".toList := by
    unfold Plain
    decide
  exact require_writes (inside_plain hplain)

variable {g : Generator} {includes : List TProgram} {p : Program}

theorem typesHeader_prints (h : ∀ q ∈ includes, PlainProgram q) :
    Prints (typesHeader g includes)
      (.require "sparsam".toList :: includes.map fun q => .require (requirePath g q)) := by
  have hlines : Prints (includes.flatMap (requireLine g))
      (includes.map fun q => .require (requirePath g q)) := by
    refine prints_flatMap fun q hq => ?_
    rw [requireLine_eq]
    exact (require_writes (inside_plain (plain_requirePath (h q hq)))).prints
  have hlast : Blank (if 0 < includes.length then ['\n'] else []) := by
    split
    · exact blank_newline
    · exact ⟨0, lines_nil⟩
  have hall := (((autogen_blank.append blank_newline).prints.append sparsam_required.prints).append
    (hlines.append hlast.prints)).append blank_newline.prints
  rw [List.append_nil, List.append_nil] at hall
  exact hall

theorem constsHeader_prints {info : TProgram} (h : PlainProgram info) :
    Prints (constsHeader g info)
      [.require "sparsam".toList, .require (requirePath g info)] := by
  have hrequire := (require_writes (inside_plain (plain_requirePath (g := g) h))).prints
  rw [← constsRequire_eq] at hrequire
  exact (((autogen_blank.append blank_newline).prints.append sparsam_required.prints).append
    hrequire).append blank_newline.prints

theorem both_ok_right {α β : Type} {R : α → β → Prop} {a : Compile α} {y : β}
    (h : Both R a (.ok y)) : ∃ x, a = .ok x ∧ R x y := by
  cases a with
  | error e => exact h.elim
  | ok x => exact ⟨x, rfl, h⟩

theorem objects_print {d : Decorations} (h : Readable d p) (depth : ℕ) :
    Both (fun texts cs => (∀ c ∈ cs, Named c.fields) →
        Prints texts.flatten (List.zipWith (classDefinition d) p.objects cs))
      (p.objects.mapM (generateRbStructText scopes fuel depth d))
      (generateProgram scopes fuel p) := by
  refine prints_mapM fun s hs => ?_
  obtain ⟨hname, hfields, hannotations⟩ := h.objects s hs
  exact generateRbStructText_prints depth d p.info hname hfields hannotations

theorem consts_print {d : Decorations} (h : Readable d p) (depth : ℕ) :
    Both (fun texts ls => (∀ l ∈ ls, PathsIn l.classes) →
        Prints texts.flatten (List.zipWith constDefinition p.consts ls))
      (p.consts.mapM (generateConstText scopes fuel depth))
      (p.consts.mapM fun c => renderConstValue scopes fuel c.type c.value) :=
  prints_mapM fun c hc => generateConstText_prints depth (h.consts c hc)

variable (g includes) in
/-- What the types file of a program says. -/
def typesStatements (d : Decorations) (p : Program) (classes : List ClassStatement) :
    List Statement :=
  .require "sparsam".toList :: (includes.map fun q => .require (requirePath g q)) ++
    inModules (rubyModules p.info)
      (p.enums.map enumModule ++ List.zipWith (classDefinition d) p.objects classes)

variable (g) in
def constsStatements (p : Program) (literals : List Literal) : List Statement :=
  .require "sparsam".toList :: .require (requirePath g p.info) ::
    inModules (rubyModules p.info) (List.zipWith constDefinition p.consts literals)

theorem inModules_named {modules : List String} (h : ∀ m ∈ modules, isConstantName m.toList = true)
    {body : List Statement} (hbody : ∀ s ∈ body, s.named = true) :
    ∀ s ∈ inModules modules body, s.named = true := by
  induction modules with
  | nil => exact hbody
  | cons m modules ih =>
    obtain ⟨hm, hmodules⟩ := List.forall_mem_cons.mp h
    intro s hs
    obtain rfl := List.mem_singleton.mp hs
    unfold Statement.named
    rw [hm, statementsNamed_iff.mpr (ih hmodules)]
    rfl

theorem allNamed_words (ws : List (List Char)) : allNamed (ws.map .word) = true := by
  induction ws with
  | nil => rfl
  | cons w ws ih => exact ih

theorem enumModule_named {tenum : TEnum}
    (hname : isConstantName (capitalize tenum.name).toList = true)
    (h : ∀ c ∈ tenum.constants, IsName c.name) : (enumModule tenum).named = true := by
  have hentries : ∀ {k v : TEnumValue → Expr}, (∀ c, (k c).named = true ∧ (v c).named = true) →
      entriesNamed (tenum.constants.map fun c => (k c, v c)) = true := by
    intro k v hkv
    induction tenum.constants with
    | nil => rfl
    | cons c cs ih =>
      rw [List.map_cons, entriesNamed, (hkv c).1, (hkv c).2, ih]
      rfl
  have hassign : ∀ {name : String} {value : Expr}, nameKind name.toList ≠ .other →
      value.named = true → (Statement.assign name.toList value).named = true := by
    intro name value hkind hvalue
    unfold Statement.named
    rw [hvalue, Bool.and_true, bne_iff_ne]
    exact hkind
  unfold enumModule Statement.named
  rw [Bool.and_eq_true, statementsNamed_iff]
  refine ⟨hname, List.forall_mem_map.mpr ?_⟩
  unfold EnumModules.generateEnum
  dsimp only
  rw [List.forall_mem_append, List.forall_mem_map]
  refine ⟨fun c hc => hassign (h c hc) rfl, ?_⟩
  simp only [List.forall_mem_cons]
  refine ⟨?_, ?_, ?_, fun s hs => absurd hs List.not_mem_nil⟩
  · unfold enumStatement
    dsimp only
    rw [List.map_map]
    exact hassign (by decide) (hentries fun c => ⟨rfl, rfl⟩)
  · unfold enumStatement
    dsimp only
    rw [List.map_map]
    exact hassign (by decide) (hentries fun c => ⟨rfl, rfl⟩)
  · have hwords := allNamed_words (tenum.constants.map fun c => (capitalize c.name).toList)
    rw [List.map_map] at hwords
    unfold enumStatement Statement.named Expr.named
    rw [List.map_map, Bool.and_eq_true]
    exact ⟨by decide, hwords⟩

theorem quotedEntries_named (annotations : List (String × String)) :
    entriesNamed (quotedEntries annotations) = true := by
  induction annotations with
  | nil => rfl
  | cons e annotations ih => exact ih

theorem classDefinition_named (d : Decorations) {s : TStruct} {c : ClassStatement}
    (hname : isConstantName (capitalize s.name).toList = true) (h : Named c.fields) :
    (classDefinition d s c).named = true := by
  have hsuper : isConstantPath (superclassPath c.superclass) = true := by
    cases c.superclass <;> decide
  have hfields : (exprOf c.fields).named = true := (exprOf_named _).mpr ⟨h.classes, h.enums⟩
  have hkinds : (nameKind "FIELDS".toList != .other) = true ∧
      (nameKind "ANNOTATIONS".toList != .other) = true := by decide
  unfold classDefinition Statement.named
  rw [hname, hsuper]
  unfold statementsNamed Statement.named statementsNamed Statement.named
  rw [hfields, hkinds.1, hkinds.2]
  unfold Expr.named
  rw [quotedEntries_named]
  rfl

theorem zipWith_named {α β : Type} {statement : α → β → Statement} {xs : List α} {ys : List β}
    (h : ∀ x ∈ xs, ∀ y ∈ ys, (statement x y).named = true) :
    ∀ s ∈ List.zipWith statement xs ys, s.named = true := by
  intro s hs
  rw [← List.map_uncurry_zip_eq_zipWith] at hs
  obtain ⟨⟨x, y⟩, hxy, rfl⟩ := List.mem_map.mp hs
  obtain ⟨hx, hy⟩ := List.of_mem_zip hxy
  exact h x hx y hy

theorem typesStatements_named {d : Decorations} (h : Readable d p) {classes : List ClassStatement}
    (hnamed : ∀ c ∈ classes, Named c.fields) :
    statementsNamed (typesStatements g includes d p classes) = true := by
  unfold typesStatements
  rw [statementsNamed_iff, List.cons_append, List.forall_mem_cons, List.forall_mem_append,
    List.forall_mem_map]
  refine ⟨rfl, fun q _ => rfl, inModules_named h.modules ?_⟩
  rw [List.forall_mem_append, List.forall_mem_map]
  exact ⟨fun e he => enumModule_named (h.enums e he).1 (h.enums e he).2,
    zipWith_named fun s hs c hc => classDefinition_named d (h.objects s hs).1 (hnamed c hc)⟩

theorem constsStatements_named {d : Decorations} (h : Readable d p) {literals : List Literal}
    (hliterals : p.consts.mapM (fun c => renderConstValue scopes fuel c.type c.value) =
      .ok literals) (hnamed : ∀ l ∈ literals, ConstantsIn l.classes) :
    statementsNamed (constsStatements g p literals) = true := by
  unfold constsStatements
  rw [statementsNamed_iff, List.forall_mem_cons, List.forall_mem_cons]
  refine ⟨rfl, rfl, inModules_named h.modules (zipWith_named fun c hc l hl => ?_)⟩
  obtain ⟨c', -, hl'⟩ := mem_of_forall₂ (mapM_ok hliterals) hl
  have hvalue : (exprOf l).named = true := by
    rw [exprOf_named, StringConstants.renderConstValue_enumModules hl']
    exact ⟨hnamed l hl, constantsIn_nil⟩
  unfold constDefinition Statement.named
  rw [hvalue, Bool.and_true, bne_iff_ne]
  exact h.consts c hc

/-- Both files are written as soon as their literals can be made, and are read back as the
    statements of the program, whatever comments they have. -/
theorem files_read {d : Decorations} (h : Readable d p) (hprogram : PlainProgram p.info)
    (hincludes : ∀ q ∈ includes, PlainProgram q) {classes : List ClassStatement}
    {literals : List Literal} (hclasses : generateProgram scopes fuel p = .ok classes)
    (hliterals : p.consts.mapM (fun c => renderConstValue scopes fuel c.type c.value) =
      .ok literals)
    (hnamed : ∀ c ∈ classes, Named c.fields) (hpaths : ∀ l ∈ literals, ConstantsIn l.classes) :
    ∃ out, generateProgramText scopes fuel g d includes p = .ok out ∧
      readFile out.types = some (typesStatements g includes d p classes) ∧
      readFile out.consts = some (constsStatements g p literals) := by
  obtain ⟨objects, htexts, hprints⟩ := both_ok_right (hclasses ▸ objects_print h _)
  obtain ⟨consts, hconstTexts, hconstPrints⟩ := both_ok_right (hliterals ▸ consts_print h _)
  have henums : Prints (p.enums.flatMap (generateEnumText (rubyModules p.info).length d))
      (p.enums.map enumModule) :=
    prints_flatMap fun e he => enum_prints d _ (h.enums e he).1 (h.enums e he).2
  have htypes := namespace_prints h.modules (henums.append (hprints hnamed)) 0
  have hvalues := namespace_prints h.modules
    (hconstPrints fun l hl => (hpaths l hl).paths) 0
  rw [Nat.zero_add] at htypes hvalues
  have hread := ((typesHeader_prints (g := g) hincludes).append htypes).all.read
    (typesStatements_named h hnamed)
  have hreadConsts := ((constsHeader_prints (g := g) hprogram).append hvalues).all.read
    (constsStatements_named h hliterals hpaths)
  refine ⟨⟨_, _⟩, ?_, hread, hreadConsts⟩
  unfold generateProgramText
  dsimp only
  rw [htexts]
  dsimp only [bind, Except.bind]
  rw [hconstTexts]
  rfl

end Whole

/-- `namespace rb geo` in `shapes.thrift` -/
def shapes : TProgram := ⟨"shapes.thrift", [("rb", "geo")]⟩

def colorEnum : TEnum := ⟨shapes, "Color", [⟨"RED", 1⟩, ⟨"blue", 2⟩]⟩

def pointStruct : TStruct :=
  { program := shapes
    name := "point"
    members := [{ type := .enum colorEnum, name := "color", key := 1, req := .T_OPTIONAL,
                  doc := some "of its border" }] }

def shapesProgram : Program :=
  { info := shapes
    enums := [colorEnum]
    consts := [{ type := .baseType .TYPE_I32 false, name := "limit"
                 value := { valType := .CV_INTEGER, intVal := 5 } }]
    objects := [pointStruct] }

def shapesDecorations : Decorations where
  structDoc := fun _ => some "A point.\n"
  annotations := fun _ => [("owner", "maps")]

theorem shapes_readable : Readable shapesDecorations shapesProgram := by
  have hplain : ∀ text ∈ ["color", "owner", "maps"], Inside quote text.toList := by
    have hchars : ∀ text ∈ ["color", "owner", "maps"], Plain text.toList := by
      unfold Plain
      decide
    exact fun text htext => inside_plain (hchars text htext)
  refine ⟨by decide, ?_, ?_, ?_⟩
  · unfold IsName
    decide
  · intro s hs
    obtain rfl := List.mem_singleton.mp hs
    refine ⟨by decide, fun f hf => ?_, fun e he => ?_⟩
    · obtain rfl := List.mem_singleton.mp hf
      refine ⟨hplain "color" (by simp), fun es hes e he => ?_⟩
      obtain rfl := Option.some.inj hes
      cases he
    · obtain rfl := List.mem_singleton.mp he
      exact ⟨hplain "owner" (by simp), hplain "maps" (by simp)⟩
  · unfold IsName
    decide

theorem shapes_read : ∃ classes literals out,
    generateProgramText (fun _ => {}) 1 ⟨true, "./", false⟩ shapesDecorations [fooBar]
      shapesProgram = .ok out ∧
    readFile out.types = some (typesStatements ⟨true, "./", false⟩ [fooBar] shapesDecorations
      shapesProgram classes) ∧
    readFile out.consts = some (constsStatements ⟨true, "./", false⟩ shapesProgram literals) := by
  have hplain : PlainProgram shapes ∧ ∀ q ∈ [fooBar], PlainProgram q := by
    unfold PlainProgram Plain
    decide
  refine ⟨_, _, files_read shapes_readable hplain.1 hplain.2 rfl rfl ?_ ?_⟩
  · intro c hc
    obtain rfl := List.mem_singleton.mp hc
    refine ⟨?_, ?_⟩
    · unfold ConstantsIn
      decide
    · unfold ConstantsIn
      decide
  · intro l hl
    obtain rfl := List.mem_singleton.mp hl
    unfold ConstantsIn
    decide

end Sparsam.GeneratedFiles
