import Sparsam.DocComments
import Sparsam.NumberFormat
import Sparsam.SchemaLiteral

set_option autoImplicit false

/-!
# The text of a constant

What `render_const_value` prints, with its layout, is read as the literal that
`renderConstValue` makes of the value.
-/
namespace Sparsam.GeneratedText
open ThriftTypes ThriftScope RubyNames SchemaLiteral RubyStrings RubyReader NumberFormat
open DocComments (indent indent_blank)

def booleanText (b : Bool) : List Char := if b then "true".toList else "false".toList

section Render
variable (scopes : String → Scope) (fuel : ℕ)

/-- The text that `render_const_value` prints for a base type. -/
def renderBaseText (base : TBase) (value : ConstValue) : Compile (List Char) :=
  match base with
  | .TYPE_STRING =>
    pure ("%q\"".toList ++ (escapeString value.stringVal).toList ++ ['"'])
  | .TYPE_BOOL => do pure (booleanText (decide (0 < (← value.getInteger).toInt)))
  | .TYPE_BYTE | .TYPE_I16 | .TYPE_I32 | .TYPE_I64 => do
    pure (formatInteger (← value.getInteger).toInt)
  | .TYPE_DOUBLE =>
    if value.valType = .CV_INTEGER then do pure (formatInteger (← value.getInteger).toInt)
    else pure (formatDouble value.doubleVal)
  | .TYPE_VOID => failure ("compiler error: no const of base type " ++ tBaseName base)

mutual
/-- The text that `render_const_value` prints at this depth of indentation. -/
def renderConstText : ℕ → ThriftType → ConstValue → Compile (List Char) :=
  fun depth type value =>
  match value with
  | ⟨t, es, xs, s, n, d, i, e⟩ => do
    let type ← getTrueType scopes fuel type
    match type with
    | .baseType base _ => renderBaseText base ⟨t, es, xs, s, n, d, i, e⟩
    | .enum _ => do
      -- the one value that is indented by itself
      pure (indent depth ++
        formatInteger (← ConstValue.getInteger ⟨t, es, xs, s, n, d, i, e⟩).toInt)
    | .struct tstruct => do
      pure ((fullTypeName tstruct.program tstruct.name).toList ++ ".new(\x7b\n".toList ++
        (← renderFieldsText (depth + 1) tstruct es) ++ indent depth ++ "\x7d)".toList)
    | .map ktype vtype => do
      pure ("\x7b\n".toList ++ (← renderEntriesText (depth + 1) ktype vtype es) ++ indent depth ++
        "\x7d".toList)
    | .list etype => do
      pure ("[\n".toList ++ (← renderElemsText (depth + 1) etype xs) ++ indent depth ++ "]".toList)
    | .set etype => do
      pure ("Set.new([\n".toList ++ (← renderElemsText (depth + 1) etype xs) ++ indent depth ++
        "])".toList)
    | .typedef _ _ _ | .forwardTypedef _ _ =>
      failure ("CANNOT GENERATE CONSTANT FOR TYPE: " ++ type.getName)

def renderFieldsText (depth : ℕ) (tstruct : TStruct) :
    List (ConstValue × ConstValue) → Compile (List Char)
  | [] => pure []
  | (k, v) :: es =>
    match memberType tstruct k.stringVal with
    | none => failure ("type error: " ++ tstruct.name ++ " has no field " ++ k.stringVal)
    | some fieldType => do
      let value ← renderConstText depth fieldType v
      pure (indent depth ++ ("%q\"".toList ++ (escapeString k.stringVal).toList ++ ['"']) ++
        " => ".toList ++ value ++ ",\n".toList ++ (← renderFieldsText depth tstruct es))

def renderEntriesText (depth : ℕ) (ktype vtype : ThriftType) :
    List (ConstValue × ConstValue) → Compile (List Char)
  | [] => pure []
  | (k, v) :: es => do
    let key ← renderConstText depth ktype k
    let value ← renderConstText depth vtype v
    pure (indent depth ++ key ++ " => ".toList ++ value ++ ",\n".toList ++
      (← renderEntriesText depth ktype vtype es))

def renderElemsText (depth : ℕ) (etype : ThriftType) : List ConstValue → Compile (List Char)
  | [] => pure []
  | x :: xs => do
    let elem ← renderConstText depth etype x
    pure (indent depth ++ elem ++ ",\n".toList ++ (← renderElemsText depth etype xs))
end

end Render

mutual
/-- The expression that Ruby reads where this literal stands. -/
def exprOf : Literal → Expr
  | .percentQ text => .string '"' text.toList
  | .quoted text => .string (Char.ofNat 39) text.toList
  | .bool b => .word (booleanText b)
  | .int n => .word (formatInteger n)
  | .double d => .word (formatDouble d)
  | .sym name => .sym name.toList
  | .types name => .const ["Sparsam".toList, "Types".toList, name.text.toList]
  | .klass path | .enumModule path => .const (path.map String.toList)
  | .array xs => .array (exprsOf xs)
  | .set xs => .set (exprsOf xs)
  | .hash es => .hash (entriesOf es)
  | .new path es => .new (path.map String.toList) (entriesOf es)

def exprsOf : List Literal → List Expr
  | [] => []
  | x :: xs => exprOf x :: exprsOf xs

def entriesOf : List (Literal × Literal) → List (Expr × Expr)
  | [] => []
  | (k, v) :: es => (exprOf k, exprOf v) :: entriesOf es
end

def IsPath (path : List String) : Prop := path ≠ [] ∧ ∀ w ∈ path, IsWord w.toList

instance (path : List String) : Decidable (IsPath path) := by
  unfold IsPath
  infer_instance

/-- Every class has a name that is read as one. -/
def PathsIn (classes : List (List String)) : Prop := ∀ path ∈ classes, IsPath path

/-- Every one has a name that Ruby takes for a constant. -/
def ConstantsIn (paths : List (List String)) : Prop :=
  ∀ path ∈ paths, isConstantPath (path.map String.toList) = true

theorem ConstantsIn.paths {paths : List (List String)} (h : ConstantsIn paths) :
    PathsIn paths := by
  intro path hpath
  have hconstant := h path hpath
  unfold isConstantPath at hconstant
  rw [Bool.and_eq_true, List.all_eq_true, List.forall_mem_map] at hconstant
  refine ⟨?_, fun w hw => isWord_constant (hconstant.2 w hw)⟩
  rintro rfl
  cases hconstant.1

theorem constantsIn_nil : ConstantsIn [] := by
  intro path hpath
  cases hpath

theorem constantsIn_append {ps qs : List (List String)} :
    ConstantsIn (ps ++ qs) ↔ ConstantsIn ps ∧ ConstantsIn qs := List.forall_mem_append

theorem constantsIn_cons {path : List String} {ps : List (List String)} :
    ConstantsIn (path :: ps) ↔ isConstantPath (path.map String.toList) = true ∧ ConstantsIn ps :=
  List.forall_mem_cons

theorem constantsIn_singleton {path : List String} :
    ConstantsIn [path] ↔ isConstantPath (path.map String.toList) = true :=
  List.forall_mem_singleton

theorem typesName_constant (name : TypesName) :
    isConstantPath ["Sparsam".toList, "Types".toList, name.text.toList] = true := by
  cases name <;> decide

mutual
theorem exprOf_named : ∀ l : Literal,
    (exprOf l).named = true ↔ ConstantsIn l.classes ∧ ConstantsIn l.enumModules
  | .percentQ _ | .quoted _ | .bool _ | .int _ | .double _ | .sym _ =>
    iff_of_true rfl ⟨constantsIn_nil, constantsIn_nil⟩
  | .types name => by
    unfold exprOf Expr.named
    exact iff_of_true (typesName_constant name) ⟨constantsIn_nil, constantsIn_nil⟩
  | .klass path => by
    simp only [exprOf, Expr.named, Literal.classes, Literal.enumModules]
    rw [constantsIn_singleton]
    exact (and_iff_left constantsIn_nil).symm
  | .enumModule path => by
    simp only [exprOf, Expr.named, Literal.classes, Literal.enumModules]
    rw [constantsIn_singleton]
    exact (and_iff_right constantsIn_nil).symm
  | .array xs | .set xs => by
    simp only [exprOf, Expr.named, Literal.classes, Literal.enumModules]
    exact exprsOf_named xs
  | .hash es => by
    simp only [exprOf, Expr.named, Literal.classes, Literal.enumModules]
    exact entriesOf_named es
  | .new path es => by
    simp only [exprOf, Expr.named, Literal.classes, Literal.enumModules]
    rw [Bool.and_eq_true, entriesOf_named es, constantsIn_cons, and_assoc]

theorem exprsOf_named : ∀ xs : List Literal, allNamed (exprsOf xs) = true ↔
    ConstantsIn (Literal.classesOfList xs) ∧ ConstantsIn (Literal.enumModulesOfList xs)
  | [] => iff_of_true rfl ⟨constantsIn_nil, constantsIn_nil⟩
  | x :: xs => by
    simp only [exprsOf, allNamed, Literal.classesOfList, Literal.enumModulesOfList]
    rw [Bool.and_eq_true, exprOf_named x, exprsOf_named xs, constantsIn_append,
      constantsIn_append]
    exact and_and_and_comm

theorem entriesOf_named : ∀ es : List (Literal × Literal), entriesNamed (entriesOf es) = true ↔
    ConstantsIn (Literal.classesOfEntries es) ∧ ConstantsIn (Literal.enumModulesOfEntries es)
  | [] => iff_of_true rfl ⟨constantsIn_nil, constantsIn_nil⟩
  | (k, v) :: es => by
    simp only [entriesOf, entriesNamed, Literal.classesOfEntries, Literal.enumModulesOfEntries]
    rw [Bool.and_eq_true, Bool.and_eq_true, exprOf_named k, exprOf_named v, entriesOf_named es,
      constantsIn_append, constantsIn_append, constantsIn_append, constantsIn_append]
    tauto
end

/-- Both fail alike, or both succeed with results that are related. -/
def Both {α β : Type} (R : α → β → Prop) : Compile α → Compile β → Prop
  | .ok a, .ok b => R a b
  | .error e, .error e' => e = e'
  | _, _ => False

section
variable {α β γ δ : Type} {R : α → β → Prop} {S : γ → δ → Prop}

theorem both_pure {a : α} {b : β} (h : R a b) : Both R (pure a) (pure b) := h

theorem both_failure (e : CompileError) : Both R (.error e) (.error e) := rfl

theorem Both.bind {a : Compile α} {b : Compile β} {f : α → Compile γ} {g : β → Compile δ}
    (h : Both R a b) (hfg : ∀ x y, R x y → Both S (f x) (g y)) : Both S (a >>= f) (b >>= g) := by
  cases a with
  | error e =>
    cases b with
    | error e' => exact h
    | ok y => exact h.elim
  | ok x =>
    cases b with
    | error e' => exact h.elim
    | ok y => exact hfg x y h

theorem both_self (a : Compile α) : Both Eq a a := by
  cases a <;> rfl

theorem Both.ok_left {a : α} {b : Compile β} (h : Both R (.ok a) b) : ∃ y, b = .ok y ∧ R a y := by
  cases b with
  | error e => exact h.elim
  | ok y => exact ⟨y, rfl, h⟩

end

section Spelling

def SpellsLiteral (text : List Char) (l : Literal) : Prop :=
  PathsIn l.classes → Spells text (exprOf l)

def SpellsLiterals (text : List Char) (ls : List Literal) : Prop :=
  PathsIn (Literal.classesOfList ls) → SpellsElems text (exprsOf ls)

def SpellsPairs (text : List Char) (es : List (Literal × Literal)) : Prop :=
  PathsIn (Literal.classesOfEntries es) → SpellsEntries text (entriesOf es)

theorem indent_space (depth : ℕ) : ∀ c ∈ indent depth, isSpace c = true := by
  intro c hc
  rw [indent_blank depth c hc]
  decide

theorem fullTypeName_toList (p : TProgram) (name : String) :
    (fullTypeName p name).toList = pathText ((constantPath p name).map String.toList) := by
  have hparts : ∀ parts : List String,
      "::".toList ++ (parts.map (· ++ "::")).flatMap String.toList ++ (capitalize name).toList =
        pathText ((parts ++ [capitalize name]).map String.toList) := by
    intro parts
    induction parts with
    | nil => simp [pathText]
    | cons part parts ih =>
      rw [List.cons_append, List.map_cons, pathText, List.flatMap_cons]
      change _ = _ ++ pathText ((parts ++ [capitalize name]).map String.toList)
      rw [← ih, String.toList_append]
      simp only [List.append_assoc]
  unfold fullTypeName constantPath
  rw [String.toList_append, String.toList_append, String.toList_join]
  exact hparts _

theorem escapeString_inside (s : String) : Inside '"' (escapeString s).toList := by
  unfold escapeString
  rw [String.toList_ofList]
  induction s.toList with
  | nil => exact inside_nil
  | cons c cs ih =>
    rw [List.flatMap_cons]
    split_ifs with hnewline hreturn htab hquote hslash
    · exact ih.escaped (by decide) _
    · exact ih.escaped (by decide) _
    · exact ih.escaped (by decide) _
    · exact ih.escaped (by decide) _
    · exact ih.escaped (by decide) _
    · exact ih.cons hquote hslash

theorem spells_escaped (s : String) :
    SpellsLiteral ("%q\"".toList ++ (escapeString s).toList ++ ['"'])
      (.percentQ (escapeString s)) :=
  fun _ => (spells_percentQ (escapeString_inside s)).spells

theorem number_booleanText (b : Bool) : Number (booleanText b) := by
  cases b <;> decide

theorem spells_integer (n : ℤ) : SpellsLiteral (formatInteger n) (.int n) :=
  fun _ => (number_formatInteger n).spells

end Spelling

section Rendered
variable {scopes : String → Scope} {fuel : ℕ}

theorem renderBaseText_spells (base : TBase) (cv : ConstValue) :
    Both SpellsLiteral (renderBaseText base cv) (renderBase base cv) := by
  have hinteger : Both SpellsLiteral (do pure (formatInteger (← cv.getInteger).toInt))
      (do pure (.int (← cv.getInteger).toInt)) := by
    refine (both_self cv.getInteger).bind ?_
    rintro n _ rfl
    exact spells_integer n.toInt
  cases base with
  | TYPE_VOID => exact both_failure _
  | TYPE_STRING => exact both_pure (spells_escaped _)
  | TYPE_BOOL =>
    refine (both_self cv.getInteger).bind ?_
    rintro n _ rfl
    exact fun _ => (number_booleanText _).spells
  | TYPE_BYTE | TYPE_I16 | TYPE_I32 | TYPE_I64 => exact hinteger
  | TYPE_DOUBLE =>
    unfold renderBaseText renderBase
    dsimp only
    split
    · exact hinteger
    · exact fun _ => (number_formatDouble _).spells

theorem renderElemsText_spells {t : ThriftType} {xs : List ConstValue} (depth : ℕ)
    (ih : ∀ x ∈ xs, Both SpellsLiteral (renderConstText scopes fuel depth t x)
      (renderConstValue scopes fuel t x)) :
    Both SpellsLiterals (renderElemsText scopes fuel depth t xs)
      (renderElems scopes fuel t xs) := by
  induction xs with
  | nil =>
    unfold renderElemsText renderElems
    exact fun _ => spellsElems_nil
  | cons x xs ihxs =>
    unfold renderElemsText renderElems
    refine (ih x (by simp)).bind fun text l hl => ?_
    refine (ihxs fun y hy => ih y (by simp [hy])).bind fun rest ls hls => ?_
    intro hpaths
    have hx := hl fun path hpath => hpaths path (List.mem_append_left _ hpath)
    have hxs := hls fun path hpath => hpaths path (List.mem_append_right _ hpath)
    exact .cons (hx.indent (indent_space depth)) hxs

theorem renderEntriesText_spells {k v : ThriftType} {es : List (ConstValue × ConstValue)}
    (depth : ℕ)
    (ih : ∀ e ∈ es, (∀ t, Both SpellsLiteral (renderConstText scopes fuel depth t e.1)
      (renderConstValue scopes fuel t e.1)) ∧ ∀ t, Both SpellsLiteral
        (renderConstText scopes fuel depth t e.2) (renderConstValue scopes fuel t e.2)) :
    Both SpellsPairs (renderEntriesText scopes fuel depth k v es)
      (renderEntries scopes fuel k v es) := by
  induction es with
  | nil =>
    unfold renderEntriesText renderEntries
    exact fun _ => spellsEntries_nil
  | cons e es ihes =>
    obtain ⟨x, y⟩ := e
    obtain ⟨hx, hy⟩ := ih (x, y) (by simp)
    unfold renderEntriesText renderEntries
    refine (hx k).bind fun key kl hkl => ?_
    refine (hy v).bind fun value vl hvl => ?_
    refine (ihes fun e he => ih e (by simp [he])).bind fun rest ls hls => ?_
    intro hpaths
    have hkey := hkl fun path hpath =>
      hpaths path (List.mem_append_left _ (List.mem_append_left _ hpath))
    have hvalue := hvl fun path hpath =>
      hpaths path (List.mem_append_left _ (List.mem_append_right _ hpath))
    have hrest := hls fun path hpath => hpaths path (List.mem_append_right _ hpath)
    exact .cons (hkey.indent (indent_space depth)) hvalue hrest

theorem renderFieldsText_spells {s : TStruct} {es : List (ConstValue × ConstValue)} (depth : ℕ)
    (ih : ∀ e ∈ es, ∀ t, Both SpellsLiteral (renderConstText scopes fuel depth t e.2)
      (renderConstValue scopes fuel t e.2)) :
    Both SpellsPairs (renderFieldsText scopes fuel depth s es) (renderFields scopes fuel s es) := by
  induction es with
  | nil =>
    unfold renderFieldsText renderFields
    exact fun _ => spellsEntries_nil
  | cons e es ihes =>
    obtain ⟨x, y⟩ := e
    unfold renderFieldsText renderFields
    cases hm : memberType s x.stringVal with
    | none => exact both_failure _
    | some m =>
      refine (ih (x, y) (by simp) m).bind fun value vl hvl => ?_
      refine (ihes fun e he => ih e (by simp [he])).bind fun rest ls hls => ?_
      intro hpaths
      have hvalue := hvl fun path hpath => hpaths path (List.mem_append_left _ hpath)
      have hrest := hls fun path hpath => hpaths path (List.mem_append_right _ hpath)
      have hkey := spells_percentQ (escapeString_inside x.stringVal)
      exact .cons (hkey.spells.indent (indent_space depth)) hvalue hrest

/-- What is printed is read as the literal of the value, at any depth. -/
theorem renderConstText_spells (cv : ConstValue) : ∀ depth t,
    Both SpellsLiteral (renderConstText scopes fuel depth t cv)
      (renderConstValue scopes fuel t cv) := by
  induction cv using ConstValue.induct with
  | mk cv ihmap ihlist =>
    obtain ⟨vt, es, xs, str, n, d, i, tenum⟩ := cv
    intro depth t
    unfold renderConstText renderConstValue
    refine (both_self (getTrueType scopes fuel t)).bind ?_
    rintro u _ rfl
    cases u with
    | baseType base bin => exact renderBaseText_spells base _
    | enum e =>
      refine (both_self (ConstValue.getInteger _)).bind ?_
      rintro m _ rfl
      exact fun _ => (number_formatInteger _).spells.indent (indent_space depth)
    | struct s =>
      refine (renderFieldsText_spells (depth + 1) fun e he => (ihmap e he).2 _).bind
        fun text ls hls => ?_
      intro hpaths
      obtain ⟨hpath, hrest⟩ := List.forall_mem_cons.mp hpaths
      have hsplit : (constantPath s.program s.name).map String.toList =
          (rubyModules s.program).map String.toList ++ [(capitalize s.name).toList] := by
        unfold constantPath
        rw [List.map_append, List.map_singleton]
      have hwords : ∀ w ∈ (constantPath s.program s.name).map String.toList, IsWord w :=
        List.forall_mem_map.mpr hpath.2
      change Spells _ (.new ((constantPath s.program s.name).map String.toList) (entriesOf ls))
      rw [fullTypeName_toList]
      rw [hsplit] at hwords ⊢
      exact ((hls hrest).new (indent_space depth) hwords).spells
    | map k v =>
      refine (renderEntriesText_spells (depth + 1) fun e he =>
        ⟨(ihmap e he).1 _, (ihmap e he).2 _⟩).bind fun text ls hls => ?_
      exact fun hpaths => ((hls hpaths).hash (indent_space depth)).spells
    | list elem =>
      refine (renderElemsText_spells (depth + 1) fun x hx => ihlist x hx _ _).bind
        fun text ls hls => ?_
      exact fun hpaths => ((hls hpaths).array (indent_space depth)).spells
    | set elem =>
      refine (renderElemsText_spells (depth + 1) fun x hx => ihlist x hx _ _).bind
        fun text ls hls => ?_
      exact fun hpaths => ((hls hpaths).set (indent_space depth)).spells
    | typedef p name t => exact both_failure _
    | forwardTypedef p name => exact both_failure _

end Rendered

end Sparsam.GeneratedText
