import Sparsam.IncludesPass
import Sparsam.PredictiveGrammar
import Sparsam.ThriftLexer

set_option autoImplicit false

/-!
# The grammar of an interface file

The rules of `thrifty.yy`, each with the part of its text that an action reads;
a left recursive list of the source is a repetition here. The flags of XSD, the
references and the separators are read and dropped, and so is documentation,
which the scanner leaves beside the tokens.
-/
namespace Sparsam.ThriftGrammar
open ThriftLexer PredictiveGrammar
open ThriftParser (ReqKeyword)
open IncludesPass (SimpleBaseType Annotations TypeSyntax ConstSyntax FieldSyntax FunctionSyntax
  EnumSyntax DefinitionSyntax)

/-- The terminals; a negative number from the scanner is the end of the file. -/
inductive Terminal where
  | char (c : Char)
  | tok_int_constant
  | tok_dub_constant
  | keyword (k : Keyword)
  | tok_identifier
  | tok_st_identifier
  | tok_literal
  | endOfFile
deriving DecidableEq, Repr

def terminal : Token → Terminal
  | .char c => .char c
  | .tok_int_constant _ => .tok_int_constant
  | .tok_dub_constant _ => .tok_dub_constant
  | .keyword k => .keyword k
  | .tok_identifier _ => .tok_identifier
  | .tok_st_identifier _ => .tok_st_identifier
  | .tok_literal _ => .tok_literal
  | .badEscape => .endOfFile

/-- `Header`; the older forms of a namespace are the namespace that they set. -/
inductive HeaderSyntax where
  | tok_include (path : String)
  | tok_namespace (language name : String)
  | tok_cpp_include (path : String)
deriving DecidableEq, Repr

structure ProgramSyntax where
  headers : List HeaderSyntax
  definitions : List DefinitionSyntax

/-- The nonterminals that a rule below them mentions again, and the start symbol. -/
inductive Nonterminal : Type → Type where
  | FieldType : Nonterminal TypeSyntax
  | ConstValue : Nonterminal ConstSyntax
  | Field : Nonterminal FieldSyntax
  | Program : Nonterminal ProgramSyntax

abbrev Symbol (α : Type) := Rule Token Terminal Nonterminal α

section Terminals
variable {α : Type}

def char (c : Char) : Symbol Unit := .token (.char c) fun _ => ()

def word (k : Keyword) (value : α) : Symbol α := .token (.keyword k) fun _ => value

def keyword (k : Keyword) : Symbol Unit := word k ()

/-- One of several keywords, each with its value. -/
def oneOf (w : Keyword × α) : List (Keyword × α) → Symbol α
  | [] => word w.1 w.2
  | v :: ws => (word w.1 w.2).alt (oneOf v ws)

/-- `$$` of the terminals that the scanner gives a text. -/
def text : Token → String
  | .tok_identifier id | .tok_st_identifier id | .tok_literal id => String.ofList id
  | _ => ""

def iconst : Token → Int64
  | .tok_int_constant iconst => iconst
  | _ => 0

def tok_identifier : Symbol String := .token .tok_identifier text

def tok_st_identifier : Symbol String := .token .tok_st_identifier text

def tok_literal : Symbol String := .token .tok_literal text

def tok_int_constant : Symbol Int64 := .token .tok_int_constant iconst

end Terminals

def dconst (atof : List Char → UInt64) : Token → UInt64
  | .tok_dub_constant yytext => atof yytext
  | _ => 0

def fieldType : Symbol TypeSyntax := .call .FieldType

def constValue : Symbol ConstSyntax := .call .ConstValue

def fieldList : Symbol (List FieldSyntax) := .many (.call .Field)

def commaOrSemicolonOptional : Symbol (Option Unit) := .opt ((char ',').alt (char ';'))

/-- `TypeAnnotationValue` and `ResourceAnnotationValue` -/
def typeAnnotationValue : Symbol (Option String) := .opt ((char '=').right tok_literal)

/-- `TypeAnnotation` and `ResourceAnnotation` -/
def typeAnnotation : Symbol (String × Option String) :=
  (tok_identifier.seq typeAnnotationValue).left commaOrSemicolonOptional

def typeAnnotationList : Symbol (List (String × Option String)) :=
  (char '(').right ((Rule.many typeAnnotation).left (char ')'))

def typeAnnotations : Symbol Annotations := .opt typeAnnotationList

def resourceAnnotations : Symbol Annotations :=
  .opt ((keyword .tok_resource).right typeAnnotationList)

def cppType : Symbol (Option String) := .opt ((keyword .tok_cpp_type).right tok_literal)

def simpleBaseType : Symbol SimpleBaseType :=
  oneOf (.tok_string, .tok_string) [(.tok_binary, .tok_binary), (.tok_slist, .tok_slist),
    (.tok_bool, .tok_bool), (.tok_byte, .tok_byte), (.tok_i16, .tok_i16), (.tok_i32, .tok_i32),
    (.tok_i64, .tok_i64), (.tok_double, .tok_double)]

def baseType : Symbol TypeSyntax :=
  (simpleBaseType.seq typeAnnotations).map fun p => .baseType p.1 p.2

def mapType : Symbol (Annotations → TypeSyntax) :=
  ((keyword .tok_map).right (cppType.seq ((char '<').right
    (fieldType.seq ((char ',').right (fieldType.left (char '>'))))))).map
      fun p => .map p.1 p.2.1 p.2.2

def setType : Symbol (Annotations → TypeSyntax) :=
  ((keyword .tok_set).right (cppType.seq ((char '<').right (fieldType.left (char '>'))))).map
    fun p => .set p.1 p.2

def listType : Symbol (Annotations → TypeSyntax) :=
  ((keyword .tok_list).right ((char '<').right ((fieldType.left (char '>')).seq cppType))).map
    fun p => .list p.1 p.2

def containerType : Symbol TypeSyntax :=
  ((mapType.alt (setType.alt listType)).seq typeAnnotations).map fun p => p.1 p.2

def fieldTypeRule : Symbol TypeSyntax :=
  (tok_identifier.map .identifier).alt (baseType.alt containerType)

def constList : Symbol ConstSyntax :=
  ((char '[').right ((Rule.many (constValue.left commaOrSemicolonOptional)).left
    (char ']'))).map .list

def constMap : Symbol ConstSyntax :=
  ((char '{').right ((Rule.many
    (constValue.seq ((char ':').right (constValue.left commaOrSemicolonOptional)))).left
      (char '}'))).map .map

def constValueRule (atof : List Char → UInt64) : Symbol ConstSyntax :=
  (tok_int_constant.map .tok_int_constant).alt
    ((Rule.token .tok_dub_constant fun t => .tok_dub_constant (dconst atof t)).alt
      ((tok_literal.map .tok_literal).alt
        ((tok_identifier.map .tok_identifier).alt (constList.alt constMap))))

def fieldIdentifier : Symbol (Option Int64) := .opt (tok_int_constant.left (char ':'))

def fieldRequiredness : Symbol (Option ReqKeyword) :=
  .opt (oneOf (.tok_required, .required) [(.tok_optional, .optional)])

def fieldReference : Symbol (Option Unit) := .opt (keyword .tok_reference)

def fieldValue : Symbol (Option ConstSyntax) := .opt ((char '=').right constValue)

def xsdOptional : Symbol (Option Unit) := .opt (keyword .tok_xsd_optional)

def xsdNillable : Symbol (Option Unit) := .opt (keyword .tok_xsd_nillable)

def xsdAttributes : Symbol (Option (List FieldSyntax)) :=
  .opt ((keyword .tok_xsd_attrs).right ((char '{').right (fieldList.left (char '}'))))

def fieldRule : Symbol FieldSyntax :=
  (fieldIdentifier.seq (fieldRequiredness.seq ((fieldType.left fieldReference).seq
    (tok_identifier.seq (fieldValue.seq ((xsdOptional.right (xsdNillable.right xsdAttributes)).seq
      (typeAnnotations.left commaOrSemicolonOptional))))))).map
        fun p => ⟨p.1, p.2.1, p.2.2.1, p.2.2.2.1, p.2.2.2.2.1, p.2.2.2.2.2.1, p.2.2.2.2.2.2⟩

def functionType : Symbol (Option TypeSyntax) := (fieldType.map some).alt (word .tok_void none)

def oneway : Symbol Bool := (Rule.opt (keyword .tok_oneway)).map Option.isSome

def throws : Symbol (Option (List FieldSyntax)) :=
  .opt ((keyword .tok_throws).right ((char '(').right (fieldList.left (char ')'))))

def function : Symbol FunctionSyntax :=
  (oneway.seq (functionType.seq (tok_identifier.seq
    (((char '(').right (fieldList.left (char ')'))).seq (throws.seq
      (typeAnnotations.seq (resourceAnnotations.left commaOrSemicolonOptional))))))).map
        fun p => ⟨p.1, p.2.1, p.2.2.1, p.2.2.2.1, p.2.2.2.2.1, p.2.2.2.2.2.1, p.2.2.2.2.2.2⟩

def extends_ : Symbol (Option String) := .opt ((keyword .tok_extends).right tok_identifier)

def service : Symbol DefinitionSyntax :=
  ((keyword .tok_service).right (tok_identifier.seq (extends_.seq
    (((char '{').right ((Rule.many function).left (char '}'))).seq
      (typeAnnotations.seq resourceAnnotations))))).map
        fun p => .service p.1 p.2.1 p.2.2.1 p.2.2.2.1 p.2.2.2.2

def enumValue : Symbol (String × Option Int64) :=
  tok_identifier.seq (.opt ((char '=').right tok_int_constant))

def enumDef : Symbol EnumSyntax :=
  (enumValue.seq (typeAnnotations.left commaOrSemicolonOptional)).map
    fun p => ⟨p.1.1, p.1.2, p.2⟩

def enum : Symbol DefinitionSyntax :=
  ((keyword .tok_enum).right (tok_identifier.seq
    (((char '{').right ((Rule.many enumDef).left (char '}'))).seq typeAnnotations))).map
      fun p => .enum p.1 p.2.1 p.2.2

def senum : Symbol DefinitionSyntax :=
  ((keyword .tok_senum).right (tok_identifier.seq
    (((char '{').right ((Rule.many (tok_literal.left commaOrSemicolonOptional)).left
      (char '}'))).seq typeAnnotations))).map
        fun p => .senum p.1 p.2.1 p.2.2

def const : Symbol DefinitionSyntax :=
  ((keyword .tok_const).right (fieldType.seq (tok_identifier.seq
    ((char '=').right (constValue.left commaOrSemicolonOptional))))).map
      fun p => .const p.1 p.2.1 p.2.2

def typedef : Symbol DefinitionSyntax :=
  ((keyword .tok_typedef).right (fieldType.seq (tok_identifier.seq
    (typeAnnotations.left commaOrSemicolonOptional)))).map
      fun p => .typedef p.1 p.2.1 p.2.2

/-- `StructHead`; `true` is a union. -/
def structHead : Symbol Bool := oneOf (.tok_struct, false) [(.tok_union, true)]

def xsdAll : Symbol (Option Unit) := .opt (keyword .tok_xsd_all)

def struct : Symbol DefinitionSyntax :=
  (structHead.seq ((tok_identifier.left xsdAll).seq
    (((char '{').right (fieldList.left (char '}'))).seq typeAnnotations))).map
      fun p => .struct p.1 p.2.1 p.2.2.1 p.2.2.2

def xception : Symbol DefinitionSyntax :=
  ((keyword .tok_xception).right (tok_identifier.seq
    (((char '{').right (fieldList.left (char '}'))).seq typeAnnotations))).map
      fun p => .xception p.1 p.2.1 p.2.2

/-- `Definition` with `TypeDefinition` -/
def definition : Symbol DefinitionSyntax :=
  const.alt (typedef.alt (enum.alt (senum.alt (struct.alt (xception.alt service)))))

/-- `tok_namespace tok_identifier tok_identifier` and `tok_namespace '*' tok_identifier` -/
def namespaceHeader : Symbol HeaderSyntax :=
  ((keyword .tok_namespace).right
    ((tok_identifier.alt ((char '*').map fun _ => "*")).seq tok_identifier)).map
      fun p => .tok_namespace p.1 p.2

/-- A keyword for the namespace of one language. -/
def languageHeader (k : Keyword) (language : String) (name : Symbol String) : Symbol HeaderSyntax :=
  ((keyword k).right name).map (.tok_namespace language)

def header : Symbol HeaderSyntax :=
  (((keyword .tok_include).right tok_literal).map .tok_include).alt
    (namespaceHeader.alt
      ((languageHeader .tok_cpp_namespace "cpp" tok_identifier).alt
        ((((keyword .tok_cpp_include).right tok_literal).map .tok_cpp_include).alt
          ((languageHeader .tok_php_namespace "php" tok_identifier).alt
            ((languageHeader .tok_py_module "py" tok_identifier).alt
              ((languageHeader .tok_perl_package "perl" tok_identifier).alt
                ((languageHeader .tok_ruby_namespace "rb" tok_identifier).alt
                  ((languageHeader .tok_smalltalk_category "smalltalk.category"
                      tok_st_identifier).alt
                    ((languageHeader Keyword.tok_smalltalk_prefix "smalltalk.prefix"
                        tok_identifier).alt
                      ((languageHeader .tok_java_package "java" tok_identifier).alt
                        ((languageHeader Keyword.tok_cocoa_prefix "cocoa" tok_identifier).alt
                          ((languageHeader .tok_xsd_namespace "cocoa" tok_literal).alt
                            ((languageHeader .tok_csharp_namespace "csharp" tok_identifier).alt
                              (languageHeader .tok_delphi_namespace "delphi"
                                tok_identifier))))))))))))))

def program : Symbol ProgramSyntax :=
  ((Rule.many header).seq (.many definition)).map fun p => ⟨p.1, p.2⟩

def rule (atof : List Char → UInt64) : (α : Type) → Nonterminal α → Symbol α
  | _, .FieldType => fieldTypeRule
  | _, .ConstValue => constValueRule atof
  | _, .Field => fieldRule
  | _, .Program => program

def typeStarts : List Terminal :=
  .tok_identifier :: [Keyword.tok_string, .tok_binary, .tok_slist, .tok_bool, .tok_byte, .tok_i16,
    .tok_i32, .tok_i64, .tok_double, .tok_map, .tok_set, .tok_list].map .keyword

def definitionStarts : List Terminal :=
  [Keyword.tok_const, .tok_typedef, .tok_enum, .tok_senum, .tok_struct, .tok_union, .tok_xception,
    .tok_service].map .keyword

def headerStarts : List Terminal :=
  [Keyword.tok_include, .tok_namespace, .tok_cpp_namespace, .tok_cpp_include, .tok_php_namespace,
    .tok_py_module, .tok_perl_package, .tok_ruby_namespace, .tok_smalltalk_category,
    Keyword.tok_smalltalk_prefix, .tok_java_package, Keyword.tok_cocoa_prefix, .tok_xsd_namespace,
    .tok_csharp_namespace, .tok_delphi_namespace].map .keyword

def facts : (α : Type) → Nonterminal α → Facts Terminal
  | _, .FieldType => ⟨typeStarts, [.char '(', .keyword .tok_cpp_type], false⟩
  | _, .ConstValue =>
    ⟨[.tok_int_constant, .tok_dub_constant, .tok_literal, .tok_identifier, .char '[', .char '{'],
      [], false⟩
  | _, .Field =>
    ⟨.tok_int_constant :: .keyword .tok_required :: .keyword .tok_optional :: typeStarts,
      [.char ',', .char ';', .char '(', .char '=', .keyword .tok_xsd_attrs,
        .keyword .tok_xsd_nillable, .keyword .tok_xsd_optional], false⟩
  | _, .Program =>
    ⟨headerStarts ++ definitionStarts,
      headerStarts ++ definitionStarts ++ [.char ',', .char ';', .char '(', .keyword .tok_resource],
      true⟩

section Decided
variable (atof : List Char → UInt64)

theorem facts_rule (α : Type) (name : Nonterminal α) :
    (rule atof α name).facts facts = (rule (fun _ => 0) α name).facts facts := by
  cases name <;> rfl

theorem decided_rule (α : Type) (name : Nonterminal α) :
    (rule atof α name).decided facts = (rule (fun _ => 0) α name).decided facts := by
  cases name <;> rfl

theorem rule_decided (α : Type) (name : Nonterminal α) :
    (rule atof α name).decided facts = true := by
  rw [decided_rule]
  cases name <;> decide +kernel

theorem rule_starts (α : Type) (name : Nonterminal α) :
    ∀ k ∈ ((rule atof α name).facts facts).starts, k ∈ (facts α name).starts := by
  rw [facts_rule]
  cases name <;> decide +kernel

theorem rule_avoids (α : Type) (name : Nonterminal α) :
    ∀ k ∈ ((rule atof α name).facts facts).avoids, k ∈ (facts α name).avoids := by
  rw [facts_rule]
  cases name <;> decide +kernel

theorem rule_empty (α : Type) (name : Nonterminal α) :
    ((rule atof α name).facts facts).empty = true → (facts α name).empty = true := by
  rw [facts_rule]
  cases name <;> decide +kernel

/-- Everywhere in the grammar the next token decides. -/
def grammar : Grammar Token Terminal Nonterminal :=
  ⟨terminal, rule atof, facts, rule_decided atof, rule_starts atof, rule_avoids atof,
    rule_empty atof⟩

end Decided

section Programs
variable (atof : List Char → UInt64)

/-- What `yyparse` sees: a negative token is the end of its input. -/
def yyinput (ts : List Token) : List Token := ts.takeWhile fun t => t != .badEscape

/-- The tokens are a text of the grammar that means the program. -/
def IsProgram (program : ProgramSyntax) (ts : List Token) : Prop :=
  (grammar atof).Language .Program program (yyinput ts)

/-- `yyparse`, with a bound on the depth of types, constants and attributes. -/
def yyparse (n : ℕ) (ts : List Token) : Option ProgramSyntax :=
  (grammar atof).parseAll n .Program (yyinput ts)

/-- The grammar is not ambiguous, and the parser that looks at one token ahead accepts
    its texts, each with its program, and no others. -/
theorem yyparse_exact (ts : List Token) :
    (∀ program, IsProgram atof program ts ↔ ∃ N, ∀ n, N ≤ n → yyparse atof n ts = some program) ∧
    (∀ program program', IsProgram atof program ts → IsProgram atof program' ts →
      program = program') :=
  ⟨fun program => (grammar atof).language_iff .Program program (yyinput ts),
    fun _ _ h h' => Grammar.Language.unique (grammar atof) h h'⟩

end Programs

end Sparsam.ThriftGrammar
