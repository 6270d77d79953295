import Sparsam.DocComments
import Sparsam.MaximalMunch
import Sparsam.StringConstants

set_option autoImplicit false

/-!
# The scanner

The rules of the scanner in their order, what each match returns, and which
identifiers it returns as identifiers. A character stands for one byte.
-/
namespace Sparsam.ThriftLexer
open MaximalMunch Pattern DocComments StringConstants

inductive Keyword where
  | tok_namespace
  | tok_cpp_namespace
  | tok_cpp_include
  | tok_cpp_type
  | tok_java_package
  | tok_cocoa_prefix
  | tok_csharp_namespace
  | tok_delphi_namespace
  | tok_php_namespace
  | tok_py_module
  | tok_perl_package
  | tok_ruby_namespace
  | tok_smalltalk_category
  | tok_smalltalk_prefix
  | tok_xsd_all
  | tok_xsd_optional
  | tok_xsd_nillable
  | tok_xsd_namespace
  | tok_xsd_attrs
  | tok_include
  | tok_void
  | tok_bool
  | tok_byte
  | tok_i16
  | tok_i32
  | tok_i64
  | tok_double
  | tok_string
  | tok_binary
  | tok_slist
  | tok_senum
  | tok_map
  | tok_list
  | tok_set
  | tok_oneway
  | tok_typedef
  | tok_struct
  | tok_union
  | tok_xception
  | tok_extends
  | tok_throws
  | tok_service
  | tok_enum
  | tok_const
  | tok_required
  | tok_optional
  | tok_reference
  | tok_resource
deriving DecidableEq, Repr

inductive Token where
  | char (c : Char)
  | tok_int_constant (iconst : Int64)
  | tok_dub_constant (yytext : List Char)
  | keyword (k : Keyword)
  | tok_identifier (id : List Char)
  | tok_st_identifier (id : List Char)
  | tok_literal (id : List Char)
  | badEscape -- the scanner returns -1
deriving DecidableEq, Repr

inductive Action where
  | skip
  | char
  | boolean (iconst : Int64)
  | keyword (k : Keyword)
  | thrift_reserved_keyword
  | intconstant
  | hexconstant
  | dubconstant
  | identifier
  | st_identifier
  | literal_begin
  | doctext
  | unexpected_token
deriving DecidableEq, Repr

def inRange (lo hi c : Char) : Bool :=
  decide (lo.toNat ≤ c.toNat) && decide (c.toNat ≤ hi.toNat)

def digit : Char → Bool := inRange '0' '9'

def letter (c : Char) : Bool := inRange 'a' 'z' c || inRange 'A' 'Z' c

def sign (c : Char) : Bool := c == '+' || c == '-'

def hexDigit (c : Char) : Bool := digit c || inRange 'A' 'F' c || inRange 'a' 'f' c

def idHead (c : Char) : Bool := letter c || c == '_'

def idTail (c : Char) : Bool := letter c || c == '_' || digit c

def stTail (c : Char) : Bool := idTail c || c == '-'

def notNewline (c : Char) : Bool := c != '\n'

def intconstant : Pattern := .seq (opt (.cls sign)) (plus (.cls digit))

def hexconstant : Pattern :=
  .seq (opt (.cls sign)) (.seq (lit ['0', 'x']) (plus (.cls hexDigit)))

def dubconstant : Pattern :=
  .seq (opt (.cls sign)) (.seq (.star (.cls digit))
    (.seq (opt (.seq (.char '.') (plus (.cls digit))))
      (opt (.seq (.cls fun c => c == 'e' || c == 'E')
        (.seq (opt (.cls sign)) (plus (.cls digit)))))))

def identifier : Pattern :=
  .seq (.cls idHead) (.star (.alt (.seq (.char '.') (.cls idTail)) (.cls idTail)))

def whitespace : Pattern := .star (.cls fun c => [' ', '\t', '\r', '\n'].contains c)

def sillycomm : Pattern :=
  .seq (lit ['/', '*']) (.seq (.star (.char '*')) (lit ['*', '/']))

/-- `([^*/]|[^*]"/"|"*"[^/])*"*"*"*/"` -/
def commentEnd : Pattern :=
  .seq (.star (.alt (.cls fun c => c != '*' && c != '/')
      (.alt (.seq (.cls fun c => c != '*') (.char '/'))
        (.seq (.char '*') (.cls fun c => c != '/')))))
    (.seq (.star (.char '*')) (lit ['*', '/']))

def multicomm : Pattern :=
  .seq (lit ['/', '*']) (.seq (.cls fun c => c != '*') (.seq (.star (.char '/')) commentEnd))

def doctext : Pattern := .seq (lit ['/', '*', '*']) commentEnd

def comment : Pattern := .seq (lit ['/', '/']) (.star (.cls notNewline))

def unixcomment : Pattern := .seq (.char '#') (.star (.cls notNewline))

def symbol : Pattern :=
  .cls fun c =>
    [':', ';', ',', '\x7b', '\x7d', '(', ')', '=', '<', '>', '[', ']'].contains c

def st_identifier : Pattern :=
  .seq (.cls fun c => letter c || c == '-')
    (.star (.alt (.seq (.char '.') (.cls stTail)) (.cls stTail)))

def literal_begin : Pattern := .cls fun c => [Char.ofNat 39, Char.ofNat 34].contains c

def keywords : List (String × Keyword) :=
  [("namespace", .tok_namespace), ("cpp_namespace", .tok_cpp_namespace),
    ("cpp_include", .tok_cpp_include), ("cpp_type", .tok_cpp_type),
    ("java_package", .tok_java_package), ("cocoa_prefix", Keyword.tok_cocoa_prefix),
    ("csharp_namespace", .tok_csharp_namespace), ("delphi_namespace", .tok_delphi_namespace),
    ("php_namespace", .tok_php_namespace), ("py_module", .tok_py_module),
    ("perl_package", .tok_perl_package), ("ruby_namespace", .tok_ruby_namespace),
    ("smalltalk_category", .tok_smalltalk_category),
    ("smalltalk_prefix", Keyword.tok_smalltalk_prefix), ("xsd_all", .tok_xsd_all),
    ("xsd_optional", .tok_xsd_optional), ("xsd_nillable", .tok_xsd_nillable),
    ("xsd_namespace", .tok_xsd_namespace), ("xsd_attrs", .tok_xsd_attrs),
    ("include", .tok_include), ("void", .tok_void), ("bool", .tok_bool), ("byte", .tok_byte),
    ("i16", .tok_i16), ("i32", .tok_i32), ("i64", .tok_i64), ("double", .tok_double),
    ("string", .tok_string), ("binary", .tok_binary), ("slist", .tok_slist),
    ("senum", .tok_senum), ("map", .tok_map), ("list", .tok_list), ("set", .tok_set),
    ("oneway", .tok_oneway), ("typedef", .tok_typedef), ("struct", .tok_struct),
    ("union", .tok_union), ("exception", .tok_xception), ("extends", .tok_extends),
    ("throws", .tok_throws), ("service", .tok_service), ("enum", .tok_enum),
    ("const", .tok_const), ("required", .tok_required), ("optional", .tok_optional),
    ("async", .tok_oneway)]

/-- The words that `thrift_reserved_keyword` refuses. -/
def reserved : List String :=
  ["BEGIN", "END", "__CLASS__", "__DIR__", "__FILE__", "__FUNCTION__", "__LINE__",
    "__METHOD__", "__NAMESPACE__", "abstract", "alias", "and", "args", "as", "assert", "begin",
    "break", "case", "catch", "class", "clone", "continue", "declare", "def", "default", "del",
    "delete", "do", "dynamic", "elif", "else", "elseif", "elsif", "end", "enddeclare",
    "endfor", "endforeach", "endif", "endswitch", "endwhile", "ensure", "except", "exec",
    "finally", "float", "for", "foreach", "from", "function", "global", "goto", "if",
    "implements", "import", "in", "inline", "instanceof", "interface", "is", "lambda",
    "module", "native", "new", "next", "nil", "not", "or", "package", "pass", "public",
    "print", "private", "protected", "public", "raise", "redo", "rescue", "retry", "register",
    "return", "self", "sizeof", "static", "super", "switch", "synchronized", "then", "this",
    "throw", "transient", "try", "undef", "union", "unless", "unsigned", "until", "use", "var",
    "virtual", "volatile", "when", "while", "with", "xor", "yield"]

def words : List (String × Action) :=
  [("false", .boolean 0), ("true", .boolean 1)] ++
    (keywords.map (Prod.map id .keyword) ++
      ([("&", .keyword .tok_reference), ("resource", .keyword .tok_resource)] ++
        reserved.map fun word => (word, .thrift_reserved_keyword)))

def layout : List (Pattern × Action) :=
  [(whitespace, .skip), (sillycomm, .skip), (multicomm, .skip), (comment, .skip),
    (unixcomment, .skip), (symbol, .char), (.char '*', .char)]

def wordRules : List (Pattern × Action) := words.map fun word => (lit word.1.toList, word.2)

def rules : List (Pattern × Action) :=
  layout ++ (wordRules ++
    [(intconstant, .intconstant), (hexconstant, .hexconstant), (dubconstant, .dubconstant),
      (identifier, .identifier), (st_identifier, .st_identifier), (literal_begin, .literal_begin),
      (doctext, .doctext), (.cls notNewline, .unexpected_token), (.cls notNewline, .char)])

structure Input where
  rest : List Char
  yylineno : ℕ := 1
deriving DecidableEq, Repr

inductive Scanned where
  | token (t : Token) (input : Input)
  | skipped (input : Input)
  | doctext (yytext : List Char) (input : Input)
  | failure (message : String)
  | endOfInput
deriving DecidableEq, Repr

def digitValue (c : Char) : ℕ :=
  if digit c then c.toNat - '0'.toNat
  else if inRange 'a' 'f' c then c.toNat - 'a'.toNat + 10
  else c.toNat - 'A'.toNat + 10

/-- `strtoll` on a sign and digits of the base; `none` is `ERANGE`. -/
def strtoll (base : ℕ) (text : List Char) : Option Int64 :=
  let magnitude (digits : List Char) : Int :=
    digits.foldl (fun n c => n * base + digitValue c) (0 : ℕ)
  let value :=
    match text with
    | '-' :: digits => -magnitude digits
    | '+' :: digits => magnitude digits
    | digits => magnitude digits
  if Int64.minValue.toInt ≤ value ∧ value ≤ Int64.maxValue.toInt then some (.ofInt value) else none

def integerOverflow (yytext : List Char) : Scanned :=
  .failure ("This integer is too big: \"" ++ String.ofList yytext ++ "\"\n")

def intValue (yytext : List Char) : Option Int64 := strtoll 10 yytext

def hexValue : List Char → Option Int64
  | '0' :: yytext => strtoll 16 (yytext.drop 1)
  | '-' :: yytext => (strtoll 16 (yytext.drop 2)).map fun iconst => -iconst
  | yytext => strtoll 16 (yytext.drop 3)

/-- The loop of a literal; `result` is read so far, `yyinput` takes the characters one by one. -/
def literal (mark : Char) (yylineno : ℕ) (result : List Char) : List Char → Scanned
  | [] => .failure s!"End of file while read string at {yylineno}\n"
  | '\n' :: _ => .failure s!"End of line while read string at {yylineno + 1 - 1}\n"
  | ['\\'] => .token .badEscape ⟨[], yylineno⟩
  | '\\' :: c :: rest =>
    match escapeValue c with
    | some d => literal mark yylineno (result ++ [d]) rest
    | none => .token .badEscape ⟨rest, if c = '\n' then yylineno + 1 else yylineno⟩
  | c :: rest =>
    if c = mark then .token (.tok_literal (cString result)) ⟨rest, yylineno⟩
    else literal mark yylineno (result ++ [c]) rest

/-- The action of a rule that has matched `yytext`. -/
def perform (action : Action) (yytext : List Char) (input : Input) : Scanned :=
  match action with
  | .skip => .skipped input
  | .char => .token (.char yytext.headI) input
  | .boolean iconst => .token (.tok_int_constant iconst) input
  | .keyword k => .token (.keyword k) input
  | .thrift_reserved_keyword =>
    .failure ("Cannot use reserved language keyword: \"" ++ String.ofList yytext ++ "\"\n")
  | .intconstant =>
    match intValue yytext with
    | some iconst => .token (.tok_int_constant iconst) input
    | none => integerOverflow yytext
  | .hexconstant =>
    match hexValue yytext with
    | some iconst => .token (.tok_int_constant iconst) input
    | none => integerOverflow yytext
  | .dubconstant => .token (.tok_dub_constant yytext) input
  | .identifier => .token (.tok_identifier yytext) input
  | .st_identifier => .token (.tok_st_identifier yytext) input
  | .literal_begin => literal yytext.headI input.yylineno [] input.rest
  | .doctext => .doctext yytext input
  | .unexpected_token =>
    .failure ("Unexpected token in input: \"" ++ String.ofList (cString yytext) ++ "\"\n")

/-- One match of the scanner and its action. -/
def scan (input : Input) : Scanned :=
  if input.rest = [] then .endOfInput
  else
    match munch rules input.rest with
    | some (action, n) =>
      perform action (input.rest.take n)
        ⟨input.rest.drop n, input.yylineno + (input.rest.take n).count '\n'⟩
    | none => .failure "flex scanner jammed"

def Scanned.next : Scanned → Option Input
  | .token _ input | .skipped input | .doctext _ input => some input
  | .failure _ | .endOfInput => none

theorem literal_next {mark : Char} {yylineno : ℕ} {result text : List Char} {input : Input}
    (h : (literal mark yylineno result text).next = some input) :
    input.rest.length ≤ text.length := by
  fun_induction literal mark yylineno result text with
  | case1 => cases h
  | case2 => cases h
  | case3 =>
    cases h
    simp
  | case4 result c rest d hd ih => exact (ih h).trans (by simp; omega)
  | case5 result c rest hd =>
    cases h
    simp; omega
  | case6 =>
    cases h
    simp
  | case7 result c rest _ _ _ _ ih => exact (ih h).trans (by simp)

theorem perform_next {action : Action} {yytext : List Char} {input next : Input}
    (h : (perform action yytext input).next = some next) :
    next.rest.length ≤ input.rest.length := by
  have hkeep {scanned : Scanned} (hscanned : scanned.next = some input)
      (h : scanned.next = some next) : next.rest.length ≤ input.rest.length := by
    rw [hscanned] at h
    cases h
    exact le_rfl
  cases action with
  | literal_begin => exact literal_next h
  | thrift_reserved_keyword => cases h
  | unexpected_token => cases h
  | intconstant =>
    unfold perform at h
    dsimp only at h
    split at h
    · exact hkeep rfl h
    · cases h
  | hexconstant =>
    unfold perform at h
    dsimp only at h
    split at h
    · exact hkeep rfl h
    · cases h
  | _ => exact hkeep rfl h

theorem firstAccepting_single (c : Char) : firstAccepting rules [c] ≠ none := by
  intro h
  rw [firstAccepting_eq_none] at h
  by_cases hc : c = '\n'
  · refine h (whitespace, .skip) (by simp [rules, layout]) ?_
    dsimp only
    rw [whitespace, mem_star_cls]
    simp [hc]
  · refine h (.cls notNewline, .char) (by simp [rules]) ?_
    exact ⟨c, by simpa [notNewline] using hc, rfl⟩

theorem scan_progress {input next : Input} (h : (scan input).next = some next) :
    next.rest.length < input.rest.length := by
  unfold scan at h
  split at h
  · cases h
  · rename_i hne
    split at h
    · rename_i action n hmunch
      obtain ⟨c, cs, hrest⟩ := List.exists_cons_of_ne_nil hne
      have hnext := perform_next h
      dsimp only at hnext
      rw [List.length_drop] at hnext
      have hlength : 0 < input.rest.length := List.length_pos_of_ne_nil hne
      have hn : 0 < n := by
        unfold munch at hmunch
        rw [hrest] at hmunch
        exact munchFrom_pos (firstAccepting_single c) (by simp) hmunch
      omega
    · cases h

def tokens (input : Input) : Except String (List Token) :=
  match _h : scan input with
  | .token t next => (tokens next).map (t :: ·)
  | .skipped next => tokens next
  | .doctext _ next => tokens next
  | .failure message => .error message
  | .endOfInput => .ok []
termination_by input.rest.length
decreasing_by all_goals exact scan_progress (by rw [_h]; rfl)

theorem tokens_of_token {input next : Input} {t : Token} (h : scan input = .token t next) :
    tokens input = (tokens next).map (t :: ·) := by
  rw [tokens]
  split <;> simp_all

theorem literal_eq_token_iff {mark : Char} {yylineno : ℕ} {result text id rest : List Char} :
    literal mark yylineno result text = .token (.tok_literal id) ⟨rest, yylineno⟩ ↔
      ∃ read, scanLiteral mark text = .ok (read, rest) ∧ id = cString (result ++ read) := by
  have hmap {c : Char} {text result : List Char} :
      (∃ read, (scanLiteral mark text).map (fun r => (c :: r.1, r.2)) = .ok (read, rest) ∧
        id = cString (result ++ read)) ↔
      ∃ read, scanLiteral mark text = .ok (read, rest) ∧ id = cString (result ++ [c] ++ read) := by
    cases scanLiteral mark text with
    | error e => simp [Except.map]
    | ok r =>
      obtain ⟨read, left⟩ := r
      simp [Except.map, and_assoc]
  fun_induction literal mark yylineno result text with
  | case1 =>
    refine iff_of_false (by simp) ?_
    rintro ⟨read, h, -⟩
    cases h
  | case2 =>
    refine iff_of_false (by simp) ?_
    rintro ⟨read, h, -⟩
    rw [scanLiteral.eq_def] at h
    cases h
  | case3 =>
    refine iff_of_false (by simp) ?_
    rintro ⟨read, h, -⟩
    cases h
  | case4 result c text d hd ih =>
    refine Iff.trans ih ?_
    rw [scanLiteral_escape hd]
    exact hmap.symm
  | case5 result c text hd =>
    refine iff_of_false (by simp) ?_
    rintro ⟨read, h, -⟩
    rw [scanLiteral.eq_def] at h
    dsimp only at h
    rw [if_neg (by decide), if_pos rfl, hd] at h
    cases h
  | case6 result text hnewline hlast hslash =>
    have hne : mark ≠ '\\' := fun h => by
      cases text with
      | nil => exact hlast h rfl
      | cons c text => exact hslash c text h rfl
    rw [scanLiteral.eq_def]
    dsimp only
    rw [if_neg hnewline, if_neg hne, if_pos rfl]
    constructor
    · intro h
      obtain ⟨rfl, rfl⟩ : cString result = id ∧ text = rest := by simpa using h
      exact ⟨[], rfl, by rw [List.append_nil]⟩
    · rintro ⟨read, h, rfl⟩
      obtain ⟨rfl, rfl⟩ := Prod.mk.inj (Except.ok.inj h)
      rw [List.append_nil]
  | case7 result c text hnewline hlast hslash hmark ih =>
    have hne : c ≠ '\\' := fun h => by
      cases text with
      | nil => exact hlast h rfl
      | cons d text => exact hslash d text h rfl
    refine Iff.trans ih ?_
    rw [scanLiteral_char hnewline hne hmark]
    exact hmap.symm

/-- An `e` with digits. -/
def ExponentLike : List Char → Prop
  | [] => False
  | e :: digits => (e = 'e' ∨ e = 'E') ∧ digits ≠ [] ∧ ∀ d ∈ digits, digit d = true

/-- The characters that a word or a number goes on with. -/
def wordChar (c : Char) : Bool := idTail c || c == '.' || sign c

theorem idTail_of_idHead {c : Char} (h : idHead c = true) : idTail c = true := by
  unfold idTail
  rw [Bool.or_eq_true]
  exact .inl h

theorem wordChar_of_idTail {c : Char} (h : idTail c = true) : wordChar c = true := by
  simp [wordChar, h]

theorem inRange_iff {lo hi c : Char} :
    inRange lo hi c = true ↔ lo.toNat ≤ c.toNat ∧ c.toNat ≤ hi.toNat := by
  simp [inRange]

theorem digit_of_idHead {c : Char} (h : idHead c = true) : digit c = false := by
  rw [Bool.eq_false_iff]
  intro hdigit
  have hd := inRange_iff.mp hdigit
  unfold idHead letter at h
  rw [Bool.or_eq_true, Bool.or_eq_true, inRange_iff, inRange_iff, beq_iff_eq] at h
  rcases h with (h | h) | rfl
  · simp only [Char.reduceToNat] at h hd
    omega
  · simp only [Char.reduceToNat] at h hd
    omega
  · simp only [Char.reduceToNat] at hd
    omega

theorem sign_of_idTail {c : Char} (h : idTail c = true) : sign c = false := by
  rw [Bool.eq_false_iff]
  intro hsign
  unfold sign at hsign
  rw [Bool.or_eq_true, beq_iff_eq, beq_iff_eq] at hsign
  rcases hsign with rfl | rfl
  · exact absurd h (by decide)
  · exact absurd h (by decide)

theorem identifier_chars {w : List Char} (h : w ∈ identifier.language) {d : Char} (hd : d ∈ w) :
    idTail d = true ∨ d = '.' := by
  have hoccurs := occurs_of_mem h hd
  simp only [identifier, occurs, char, Bool.or_eq_true, beq_iff_eq] at hoccurs
  rcases hoccurs with hoccurs | (rfl | hoccurs) | hoccurs
  · exact .inl (idTail_of_idHead hoccurs)
  · exact .inr rfl
  · exact .inl hoccurs
  · exact .inl hoccurs

theorem identifier_cons {w : List Char} (h : w ∈ identifier.language) :
    ∃ c cs, w = c :: cs ∧ idHead c = true := by
  cases w with
  | nil =>
    rw [← nullable_iff] at h
    cases h
  | cons c cs => exact ⟨c, cs, rfl, (cons_mem_cls_seq.mp h).1⟩

/-- The digits of a number constant are all optional, so an exponent alone is one. -/
theorem mem_dubconstant {c : Char} {cs : List Char} (h : c :: cs ∈ identifier.language) :
    c :: cs ∈ dubconstant.language ↔ ExponentLike (c :: cs) := by
  have hc : idHead c = true := (cons_mem_cls_seq.mp h).1
  have hsign : sign c = false := sign_of_idTail (idTail_of_idHead hc)
  have hdigit : digit c = false := digit_of_idHead hc
  have hdot : (c == '.') = false := by
    rw [beq_eq_false_iff_ne]
    rintro rfl
    exact absurd hc (by decide)
  rw [dubconstant, cons_mem_seq_of_not_starts (by simp [opt, starts, hsign]) rfl,
    cons_mem_seq_of_not_starts (by simp [starts, hdigit]) rfl,
    cons_mem_seq_of_not_starts (by simp [opt, starts, char, nullable, hdot]) rfl, cons_mem_opt,
    cons_mem_cls_seq, Bool.or_eq_true, beq_iff_eq, beq_iff_eq, ExponentLike]
  refine and_congr_right fun _ => ?_
  cases cs with
  | nil =>
    rw [← nullable_iff]
    simp [nullable, opt, plus]
  | cons d ds =>
    have hd : sign d = false := by
      rcases identifier_chars h (d := d) (by simp) with hd | rfl
      · exact sign_of_idTail hd
      · rfl
    rw [cons_mem_seq_of_not_starts (by simp [opt, starts, hd]) rfl, mem_plus_cls]

section Rules
variable {c d : Char}

theorem beq_of_idHead (hc : idHead c = true) (hd : idHead d = false) : (c == d) = false := by
  rw [beq_eq_false_iff_ne]
  rintro rfl
  rw [hc] at hd
  cases hd

theorem contains_of_idHead {ds : List Char} (hc : idHead c = true)
    (hds : ∀ d ∈ ds, idHead d = false) : ds.contains c = false := by
  rw [Bool.eq_false_iff]
  intro h
  have hd := hds c (List.contains_iff_mem.mp h)
  rw [hc] at hd
  cases hd

theorem layout_starts (hc : idHead c = true) : ∀ r ∈ layout, r.1.starts c = false := by
  have hblank : whitespace.starts c = false := contains_of_idHead hc (by decide)
  have hsymbol : symbol.starts c = false := contains_of_idHead hc (by decide)
  have hslash : (c == '/') = false := beq_of_idHead hc rfl
  have hhash : (c == '#') = false := beq_of_idHead hc rfl
  have hstar : (c == '*') = false := beq_of_idHead hc rfl
  simp [layout, hblank, hsymbol, sillycomm, multicomm, comment, unixcomment, starts, lit, char,
    nullable, hslash, hhash, hstar]

theorem intconstant_starts (hc : idHead c = true) : intconstant.starts c = false := by
  simp [intconstant, opt, plus, starts, sign_of_idTail (idTail_of_idHead hc), digit_of_idHead hc]

theorem hexconstant_starts (hc : idHead c = true) : hexconstant.starts c = false := by
  have hzero : (c == '0') = false := beq_of_idHead hc rfl
  simp [hexconstant, opt, lit, char, starts, nullable, sign_of_idTail (idTail_of_idHead hc), hzero]

theorem words_chars :
    (words.all fun word => word.1.toList.all idTail || word.1.toList == ['&']) = true := by
  decide +kernel

theorem word_stops (hc : idHead c = true) (hd : wordChar d = false) : ∀ r ∈ wordRules,
    r.1.starts c = true → (r.1.deriv c).occurs d = false := by
  intro r hr hstarts
  obtain ⟨word, hword, rfl⟩ := List.mem_map.mp hr
  have hchars := List.all_eq_true.mp words_chars word hword
  rw [Bool.or_eq_true, List.all_eq_true, beq_iff_eq] at hchars
  rcases hchars with hchars | hchars
  · rw [Bool.eq_false_iff]
    intro hderiv
    have hoccurs := hchars d (occurs_lit.mp (occurs_of_deriv hderiv))
    rw [wordChar_of_idTail hoccurs] at hd
    cases hd
  · dsimp only at hstarts
    rw [hchars] at hstarts
    have hamp : (c == '&') = false := beq_of_idHead hc rfl
    simp [lit, char, starts, hamp, nullable] at hstarts

theorem number_chars (hd : wordChar d = false) : dubconstant.occurs d = false := by
  unfold wordChar idTail at hd
  simp only [Bool.or_eq_false_iff] at hd
  obtain ⟨⟨⟨⟨hletter, -⟩, hdigit⟩, hdot⟩, hsign⟩ := hd
  have hexponent : (d == 'e' || d == 'E') = false := by
    rw [Bool.eq_false_iff, ne_eq, Bool.or_eq_true, beq_iff_eq, beq_iff_eq]
    rintro (rfl | rfl)
    · exact absurd hletter (by decide)
    · exact absurd hletter (by decide)
  simp [dubconstant, occurs, opt, plus, char, hdigit, hdot, hsign, hexponent]

theorem identifier_occurs (hd : wordChar d = false) : identifier.occurs d = false := by
  unfold wordChar idTail at hd
  simp only [Bool.or_eq_false_iff] at hd
  simp [identifier, occurs, char, idHead, idTail, hd]

theorem st_identifier_occurs (hd : wordChar d = false) : st_identifier.occurs d = false := by
  unfold wordChar idTail sign at hd
  simp only [Bool.or_eq_false_iff] at hd
  simp [st_identifier, occurs, char, stTail, idTail, hd]

theorem stops_at_delimiter (hc : idHead c = true) (hd : wordChar d = false) :
    ∀ r ∈ rules, r.1.starts c = true → (r.1.deriv c).occurs d = false := by
  have habsent {a : Pattern} (ha : a.starts c = false) (h : a.starts c = true) :
      (a.deriv c).occurs d = false := by
    rw [ha] at h
    cases h
  have hends {a : Pattern} (ha : a.occurs d = false) (_ : a.starts c = true) :
      (a.deriv c).occurs d = false := by
    rw [Bool.eq_false_iff] at ha ⊢
    exact fun h => ha (occurs_of_deriv h)
  have hdot (_ : (Pattern.cls notNewline).starts c = true) :
      ((Pattern.cls notNewline).deriv c).occurs d = false := by
    rw [Pattern.deriv]
    split <;> rfl
  have hliteral : literal_begin.starts c = false := contains_of_idHead hc (by decide)
  have hdoctext : doctext.starts c = false := by
    have hslash : (c == '/') = false := beq_of_idHead hc rfl
    simp [doctext, starts, lit, char, nullable, hslash]
  unfold rules
  rw [List.forall_mem_append, List.forall_mem_append]
  refine ⟨fun r hr => habsent (layout_starts hc r hr), word_stops hc hd, ?_⟩
  simp only [List.forall_mem_cons, List.not_mem_nil, false_implies, implies_true, and_true]
  exact ⟨habsent (intconstant_starts hc), habsent (hexconstant_starts hc),
    hends (number_chars hd), hends (identifier_occurs hd), hends (st_identifier_occurs hd),
    habsent hliteral, habsent hdoctext, hdot, hdot⟩

end Rules

/-- The rules before the number constant with a fraction. -/
def earlier : List (Pattern × Action) :=
  layout ++ (wordRules ++ [(intconstant, .intconstant), (hexconstant, .hexconstant)])

def later : List (Pattern × Action) :=
  [(st_identifier, .st_identifier), (literal_begin, .literal_begin), (doctext, .doctext),
    (.cls notNewline, .unexpected_token), (.cls notNewline, .char)]

theorem rules_eq :
    rules = earlier ++ (dubconstant, .dubconstant) :: (identifier, .identifier) :: later := by
  simp [rules, earlier, later]

theorem not_mem_earlier {w : List Char} (hw : w ∈ identifier.language)
    (hword : ∀ word ∈ words, w ≠ word.1.toList) : ∀ r ∈ earlier, w ∉ r.1.language := by
  obtain ⟨c, cs, rfl, hc⟩ := identifier_cons hw
  have habsent {a : Pattern} (ha : a.starts c = false) : c :: cs ∉ a.language := by
    intro h
    rw [starts_of_mem h] at ha
    cases ha
  unfold earlier
  rw [List.forall_mem_append, List.forall_mem_append]
  refine ⟨fun r hr => habsent (layout_starts hc r hr), fun r hr => ?_, ?_⟩
  · obtain ⟨word, hmem, rfl⟩ := List.mem_map.mp hr
    exact fun h => hword word hmem (mem_lit.mp h)
  · simp only [List.forall_mem_cons, List.not_mem_nil, false_implies, implies_true, and_true]
    exact ⟨habsent (intconstant_starts hc), habsent (hexconstant_starts hc)⟩

section Scan
variable {w rest : List Char} {yylineno : ℕ} (hw : w ∈ identifier.language)
  (hrest : ∀ d ∈ rest.head?, wordChar d = false)
include hw hrest

theorem scan_of_firstAccepting {action : Action} (hfirst : firstAccepting rules w = some action) :
    scan ⟨w ++ rest, yylineno⟩ = perform action w ⟨rest, yylineno⟩ := by
  have hlines : w.count '\n' = 0 := by
    rw [List.count_eq_zero]
    intro hnewline
    rcases identifier_chars hw hnewline with h | h
    · exact absurd h (by decide)
    · exact absurd h (by decide)
  obtain ⟨c, cs, rfl, hc⟩ := identifier_cons hw
  have hmunch := munch_append hfirst fun d hd => stops_at_delimiter hc (hrest d hd)
  unfold scan
  rw [if_neg (by simp)]
  dsimp only
  rw [hmunch]
  dsimp only
  rw [List.take_left' rfl, List.drop_left' rfl, hlines, Nat.add_zero]

theorem scan_exponent (hword : ∀ word ∈ words, w ≠ word.1.toList) (he : ExponentLike w) :
    scan ⟨w ++ rest, yylineno⟩ = .token (.tok_dub_constant w) ⟨rest, yylineno⟩ := by
  have hdub : w ∈ dubconstant.language := by
    obtain ⟨c, cs, rfl, -⟩ := identifier_cons hw
    exact (mem_dubconstant hw).mpr he
  have hfirst : firstAccepting rules w = some .dubconstant := by
    rw [rules_eq]
    exact firstAccepting_append (not_mem_earlier hw hword) hdub
  exact scan_of_firstAccepting hw hrest hfirst

theorem scan_identifier (hword : ∀ word ∈ words, w ≠ word.1.toList) (he : ¬ ExponentLike w) :
    scan ⟨w ++ rest, yylineno⟩ = .token (.tok_identifier w) ⟨rest, yylineno⟩ := by
  have hdub : w ∉ dubconstant.language := by
    obtain ⟨c, cs, rfl, -⟩ := identifier_cons hw
    exact fun h => he ((mem_dubconstant hw).mp h)
  have hbefore : ∀ r ∈ earlier ++ [(dubconstant, Action.dubconstant)], w ∉ r.1.language := by
    rw [List.forall_mem_append]
    exact ⟨not_mem_earlier hw hword, by simpa using hdub⟩
  have hfirst : firstAccepting rules w = some .identifier := by
    rw [rules_eq, ← List.singleton_append, ← List.append_assoc]
    exact firstAccepting_append hbefore hw
  exact scan_of_firstAccepting hw hrest hfirst

/-- An identifier is scanned as one exactly when it is not an `e` with digits. -/
theorem identifier_scanned_iff (hword : ∀ word ∈ words, w ≠ word.1.toList) :
    scan ⟨w ++ rest, yylineno⟩ = .token (.tok_identifier w) ⟨rest, yylineno⟩ ↔
      ¬ ExponentLike w := by
  constructor
  · intro h he
    rw [scan_exponent hw hrest hword he] at h
    cases h
  · exact scan_identifier hw hrest hword

theorem tokens_identifier (hword : ∀ word ∈ words, w ≠ word.1.toList) (he : ¬ ExponentLike w) :
    tokens ⟨w ++ rest, yylineno⟩ = (tokens ⟨rest, yylineno⟩).map (.tok_identifier w :: ·) :=
  tokens_of_token (scan_identifier hw hrest hword he)

end Scan

theorem name_scanned :
    scan ⟨['n', 'a', 'm', 'e', ' ', '1'], 1⟩ = .token (.tok_identifier ['n', 'a', 'm', 'e'])
      ⟨[' ', '1'], 1⟩ := by
  have hw : ['n', 'a', 'm', 'e'] ∈ identifier.language := (accepts_iff _ _).mp (by decide)
  have hrest : ∀ d ∈ [' ', '1'].head?, wordChar d = false := by
    rintro d ⟨⟩
    rfl
  have hscanned := @identifier_scanned_iff ['n', 'a', 'm', 'e'] [' ', '1'] 1 hw hrest
    (by decide +kernel)
  exact hscanned.mpr (by simp [ExponentLike])

/-- `e1` and a blank are scanned as the number constant `e1`. -/
theorem exponent_not_identifier :
    ['e', '1'] ∈ identifier.language ∧ (∀ word ∈ words, ['e', '1'] ≠ word.1.toList) ∧
      wordChar ' ' = false ∧
        scan ⟨['e', '1', ' '], 1⟩ = .token (.tok_dub_constant ['e', '1']) ⟨[' '], 1⟩ := by
  have hw : ['e', '1'] ∈ identifier.language := (accepts_iff _ _).mp (by decide)
  have hword : ∀ word ∈ words, ['e', '1'] ≠ word.1.toList := by decide +kernel
  have hrest : ∀ d ∈ [' '].head?, wordChar d = false := by
    rintro d ⟨⟩
    rfl
  have hscan := @scan_exponent ['e', '1'] [' '] 1 hw hrest hword
  exact ⟨hw, hword, rfl, hscan ⟨.inl rfl, by simp, by decide⟩⟩

section Identifiers

theorem rule_identifier : ∀ r ∈ rules, r.2 = .identifier → r.1 = identifier := by
  have hwords : ∀ word ∈ words, word.2 ≠ .identifier := by decide +kernel
  unfold rules
  rw [List.forall_mem_append, List.forall_mem_append]
  refine ⟨by simp [layout], fun r hr haction => ?_, by simp⟩
  obtain ⟨word, hword, rfl⟩ := List.mem_map.mp hr
  exact absurd haction (hwords word hword)

theorem literal_ne_identifier {mark : Char} {yylineno : ℕ} {result text id : List Char}
    {next : Input} : literal mark yylineno result text ≠ .token (.tok_identifier id) next := by
  fun_induction literal mark yylineno result text with
  | case4 _ _ _ _ _ ih | case7 _ _ _ _ _ _ _ ih => exact ih
  | _ => exact fun h => nomatch h

theorem identifier_of_perform {action : Action} {yytext id : List Char} {input next : Input}
    (h : perform action yytext input = .token (.tok_identifier id) next) :
    action = .identifier ∧ id = yytext := by
  cases action with
  | identifier =>
    cases h
    exact ⟨rfl, rfl⟩
  | literal_begin => exact absurd h literal_ne_identifier
  | intconstant | hexconstant =>
    unfold perform at h
    dsimp only at h
    split at h <;> cases h
  | _ => cases h

theorem identifier_of_scan {input next : Input} {id : List Char}
    (h : scan input = .token (.tok_identifier id) next) : id ∈ identifier.language := by
  unfold scan at h
  split at h
  · cases h
  · split at h
    · rename_i action n hmunch
      obtain ⟨rfl, rfl⟩ := identifier_of_perform h
      obtain ⟨r, hr, haction, hmem⟩ := firstAccepting_sound (munchFrom_sound hmunch)
      rwa [rule_identifier r hr haction] at hmem
    · cases h

theorem identifier_of_tokens {input : Input} {ts : List Token} (h : tokens input = .ok ts)
    {id : List Char} (hid : .tok_identifier id ∈ ts) : id ∈ identifier.language := by
  fun_induction tokens input generalizing ts with
  | case1 input t next hscan ih =>
    cases hnext : tokens next with
    | error message =>
      rw [hnext] at h
      cases h
    | ok rest =>
      rw [hnext] at h
      obtain rfl := Except.ok.inj h
      rcases List.mem_cons.mp hid with rfl | hid
      · exact identifier_of_scan hscan
      · exact ih hnext hid
  | case2 input next _ ih => exact ih h hid
  | case3 input _ next _ ih => exact ih h hid
  | case4 => cases h
  | case5 =>
    obtain rfl := Except.ok.inj h
    cases hid

end Identifiers

end Sparsam.ThriftLexer
