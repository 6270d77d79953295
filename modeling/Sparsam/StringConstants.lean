import Sparsam.ClassReferences
import Sparsam.GeneratedText

set_option autoImplicit false

/-!
# The strings of a constant

`escape_string` escapes for double quotes and the generator prints `%q`, which
knows fewer escapes: a line break, a carriage return or a tab is read back as
a backslash and a letter. Every other character survives.
-/
namespace Sparsam.StringConstants
open ThriftTypes ThriftScope SchemaLiteral ClassReferences RubyStrings RubyReader GeneratedText

section Scanner

/-- What a character stands for after a backslash. -/
def escapeValue (ch : Char) : Option Char :=
  if ch = 'r' then some '\r'
  else if ch = 'n' then some '\n'
  else if ch = 't' then some '\t'
  else if ch = '"' ∨ ch = Char.ofNat 39 ∨ ch = '\\' then some ch
  else none

/-- The loop of the scanner after `mark`, the opening quote: the text and what follows
    the closing one. -/
def scanLiteral (mark : Char) : List Char → Compile (List Char × List Char)
  | [] => failure "End of file while read string"
  | ch :: src =>
    if ch = '\n' then failure "End of line while read string"
    else if ch = '\\' then
      match src with
      | [] => failure "Bad escape character\n"
      | ch :: src =>
        match escapeValue ch with
        | none => failure "Bad escape character\n"
        | some c => (scanLiteral mark src).map fun r => (c :: r.1, r.2)
    else if ch = mark then pure ([], src)
    else (scanLiteral mark src).map fun r => (ch :: r.1, r.2)

/-- `tok_literal`, which `strdup` cuts at a NUL. -/
def tokLiteral (mark : Char) (src : List Char) : Compile (String × List Char) :=
  (scanLiteral mark src).map fun r =>
    (String.ofList (r.1.takeWhile (· ≠ Char.ofNat 0)), r.2)

def writeChar (c : Char) : List Char :=
  if c = '\r' then ['\\', 'r']
  else if c = '\n' then ['\\', 'n']
  else if c = '\t' then ['\\', 't']
  else if c = '"' ∨ c = Char.ofNat 39 ∨ c = '\\' then ['\\', c]
  else [c]

theorem scanLiteral_escape {mark ch c : Char} (h : escapeValue ch = some c) (src : List Char) :
    scanLiteral mark ('\\' :: ch :: src) =
      (scanLiteral mark src).map fun r => (c :: r.1, r.2) := by
  rw [scanLiteral.eq_def]
  dsimp only
  rw [if_neg (by decide), if_pos rfl, h]

theorem scanLiteral_char {mark c : Char} (hnewline : c ≠ '\n') (hslash : c ≠ '\\')
    (hmark : c ≠ mark) (src : List Char) : scanLiteral mark (c :: src) =
      (scanLiteral mark src).map fun r => (c :: r.1, r.2) := by
  rw [scanLiteral.eq_def]
  dsimp only
  rw [if_neg hnewline, if_neg hslash, if_neg hmark]

theorem scanLiteral_mark {mark : Char} (hmark : mark = '"' ∨ mark = Char.ofNat 39)
    (src : List Char) : scanLiteral mark (mark :: src) = .ok ([], src) := by
  rw [scanLiteral.eq_def]
  rcases hmark with rfl | rfl <;> rfl

theorem scanLiteral_writeChar {mark : Char} (hmark : mark = '"' ∨ mark = Char.ofNat 39) (c : Char)
    (src : List Char) : scanLiteral mark (writeChar c ++ src) =
      (scanLiteral mark src).map fun r => (c :: r.1, r.2) := by
  unfold writeChar
  split_ifs with hreturn hnewline htab hquote
  · subst hreturn
    exact scanLiteral_escape rfl src
  · subst hnewline
    exact scanLiteral_escape rfl src
  · subst htab
    exact scanLiteral_escape rfl src
  · exact scanLiteral_escape (by rcases hquote with rfl | rfl | rfl <;> rfl) src
  · obtain ⟨hdouble, hsingle, hslash⟩ : c ≠ '"' ∧ c ≠ Char.ofNat 39 ∧ c ≠ '\\' := by
      simpa only [not_or] using hquote
    have hne : c ≠ mark := by
      rcases hmark with rfl | rfl
      · exact hdouble
      · exact hsingle
    exact scanLiteral_char hnewline hslash hne src

/-- Every text can be written as a literal. -/
theorem scanLiteral_written {mark : Char} (hmark : mark = '"' ∨ mark = Char.ofNat 39)
    (s src : List Char) : scanLiteral mark (s.flatMap writeChar ++ mark :: src) = .ok (s, src) := by
  induction s with
  | nil =>
    rw [List.flatMap_nil, List.nil_append, scanLiteral_mark hmark]
  | cons c s ih =>
    rw [List.flatMap_cons, List.append_assoc, scanLiteral_writeChar hmark, ih]
    rfl

/-- The strings that literals give are those without a NUL. -/
theorem tokLiteral_iff (s : String) :
    (∃ mark src rest, tokLiteral mark src = .ok (s, rest)) ↔ Char.ofNat 0 ∉ s.toList := by
  constructor
  · rintro ⟨mark, src, rest, h⟩ hnul
    unfold tokLiteral at h
    cases hscan : scanLiteral mark src with
    | error e =>
      rw [hscan] at h
      cases h
    | ok r =>
      rw [hscan] at h
      obtain ⟨rfl, -⟩ := Prod.mk.inj (Except.ok.inj h)
      rw [String.toList_ofList] at hnul
      have hne := List.mem_takeWhile_imp hnul
      simp at hne
  · intro hnul
    refine ⟨'"', s.toList.flatMap writeChar ++ ['"'], [], ?_⟩
    have hkeep : s.toList.takeWhile (· ≠ Char.ofNat 0) = s.toList := by
      rw [List.takeWhile_eq_self_iff]
      intro c hc
      simp only [ne_eq, decide_eq_true_eq]
      rintro rfl
      exact hnul hc
    unfold tokLiteral
    rw [scanLiteral_written (.inl rfl)]
    change Except.ok (String.ofList (s.toList.takeWhile (· ≠ Char.ofNat 0)), []) = _
    rw [hkeep, String.ofList_toList]

end Scanner

section Literals

def readBack (c : Char) : List Char :=
  if c = '\n' then ['\\', 'n']
  else if c = '\r' then ['\\', 'r']
  else if c = '\t' then ['\\', 't']
  else [c]

/-- A string without the characters that are escaped as letters. -/
def Unbroken (s : String) : Prop := ∀ c ∈ s.toList, c ≠ '\n' ∧ c ≠ '\r' ∧ c ≠ '\t'

instance (s : String) : Decidable (Unbroken s) := by
  unfold Unbroken
  infer_instance

theorem unescape_escapeString (s : String) :
    unescape '"' (escapeString s).toList = s.toList.flatMap readBack := by
  unfold escapeString
  rw [String.toList_ofList]
  induction s.toList with
  | nil => rfl
  | cons c cs ih =>
    rw [List.flatMap_cons, List.flatMap_cons, ← ih]
    unfold readBack
    split_ifs with hnewline hreturn htab hquote hslash
    · simp [unescape]
    · simp [unescape]
    · simp [unescape]
    · subst hquote
      simp [unescape]
    · subst hslash
      simp [unescape]
    · exact unescape_char hslash _

theorem flatMap_readBack_iff (cs : List Char) :
    cs.flatMap readBack = cs ↔ ∀ c ∈ cs, c ≠ '\n' ∧ c ≠ '\r' ∧ c ≠ '\t' := by
  induction cs with
  | nil => simp
  | cons c cs ih =>
    rw [List.flatMap_cons, List.forall_mem_cons, ← ih]
    unfold readBack
    split_ifs with hnewline hreturn htab
    · simp [hnewline]
    · simp [hreturn]
    · simp [htab]
    · simp [hnewline, hreturn, htab]

/-- A literal is read back as the string it was printed for exactly when no character of
    it is escaped as a letter. -/
theorem readQuoted_escapeString_iff (s : String) :
    (∀ rest, readQuoted '"' ((escapeString s).toList ++ '"' :: rest) = some (s.toList, rest)) ↔
      Unbroken s := by
  have hread : ∀ rest, readQuoted '"' ((escapeString s).toList ++ '"' :: rest) =
      some (s.toList.flatMap readBack, rest) := by
    intro rest
    rw [readQuoted_eq_scan (by decide), escapeString_inside s rest, Option.map_some,
      unescape_escapeString]
  rw [Unbroken, ← flatMap_readBack_iff]
  constructor
  · intro h
    have hnil := h []
    rw [hread] at hnil
    exact (Prod.mk.inj (Option.some.inj hnil)).1
  · intro h rest
    rw [hread, h]

theorem scanLiteral_escapeString (s : String) (src : List Char) :
    scanLiteral '"' ((escapeString s).toList ++ '"' :: src) = .ok (s.toList, src) := by
  unfold escapeString
  rw [String.toList_ofList]
  induction s.toList with
  | nil => exact scanLiteral_mark (.inl rfl) src
  | cons c cs ih =>
    rw [List.flatMap_cons, List.append_assoc]
    generalize cs.flatMap _ ++ '"' :: src = text at ih ⊢
    have hescape : ∀ ch, escapeValue ch = some c →
        scanLiteral '"' (['\\', ch] ++ text) = .ok (c :: cs, src) := by
      intro ch hch
      rw [List.cons_append, List.singleton_append, scanLiteral_escape hch, ih]
      rfl
    split_ifs with hnewline hreturn htab hquote hslash
    · exact hescape 'n' (by rw [hnewline]; rfl)
    · exact hescape 'r' (by rw [hreturn]; rfl)
    · exact hescape 't' (by rw [htab]; rfl)
    · exact hescape '"' (by rw [hquote]; rfl)
    · exact hescape '\\' (by rw [hslash]; rfl)
    · rw [List.singleton_append, scanLiteral_char hnewline hslash hquote, ih]
      rfl

theorem escapeString_injective {s s' : String}
    (h : (escapeString s).toList = (escapeString s').toList) : s = s' := by
  have hs := scanLiteral_escapeString s []
  rw [h, scanLiteral_escapeString s' []] at hs
  exact String.toList_inj.mp (Prod.mk.inj (Except.ok.inj hs)).1.symm

end Literals

mutual
/-- What the string literals of an expression denote, in order. -/
def stringsOf : Expr → List (List Char)
  | .string delim raw => [unescape delim raw]
  | .array xs | .set xs => stringsOfElems xs
  | .hash es | .new _ es => stringsOfEntries es
  | _ => []

def stringsOfElems : List Expr → List (List Char)
  | [] => []
  | x :: xs => stringsOf x ++ stringsOfElems xs

def stringsOfEntries : List (Expr × Expr) → List (List Char)
  | [] => []
  | (k, v) :: es => stringsOf k ++ stringsOf v ++ stringsOfEntries es
end

section Values
variable (scopes : String → Scope) (fuel : ℕ)

mutual
/-- The string constants of a value of this type, in order; the keys of a struct are
    among them. -/
def stringConstants : ThriftType → ConstValue → List String := fun type value =>
  match value with
  | ⟨_, es, xs, s, _, _, _, _⟩ =>
    match getTrueType scopes fuel type with
    | .ok (.baseType .TYPE_STRING _) => [s]
    | .ok (.struct tstruct) => fieldStrings tstruct es
    | .ok (.map ktype vtype) => entryStrings ktype vtype es
    | .ok (.list etype) | .ok (.set etype) => elemStrings etype xs
    | _ => []

def fieldStrings (tstruct : TStruct) : List (ConstValue × ConstValue) → List String
  | [] => []
  | (k, v) :: es =>
    match memberType tstruct k.stringVal with
    | none => []
    | some fieldType =>
      k.stringVal :: (stringConstants fieldType v ++ fieldStrings tstruct es)

def entryStrings (ktype vtype : ThriftType) : List (ConstValue × ConstValue) → List String
  | [] => []
  | (k, v) :: es =>
    stringConstants ktype k ++ stringConstants vtype v ++ entryStrings ktype vtype es

def elemStrings (etype : ThriftType) : List ConstValue → List String
  | [] => []
  | x :: xs => stringConstants etype x ++ elemStrings etype xs
end

end Values

section Closed
variable {scopes : String → Scope} {fuel : ℕ} {P : Literal → Prop}

theorem renderBase_of_closed (percentQ : ∀ s, P (.percentQ s)) (bool : ∀ b, P (.bool b))
    (int : ∀ n, P (.int n)) (double : ∀ d, P (.double d)) {base : TBase} {cv : ConstValue}
    {l : Literal} (h : renderBase base cv = .ok l) : P l := by
  have hinteger : ∀ f : Int64 → Literal, (∀ n, P (f n)) →
      (do pure (f (← cv.getInteger)) : Compile Literal) = .ok l → P l := by
    intro f hf h
    obtain ⟨n, -, h⟩ := bind_ok h
    rw [← Except.ok.inj h]
    exact hf n
  cases base with
  | TYPE_VOID => cases h
  | TYPE_STRING =>
    rw [← Except.ok.inj h]
    exact percentQ _
  | TYPE_BOOL => exact hinteger (fun n => .bool (decide (0 < n.toInt))) (fun _ => bool _) h
  | TYPE_BYTE | TYPE_I16 | TYPE_I32 | TYPE_I64 =>
    exact hinteger (fun n => .int n.toInt) (fun _ => int _) h
  | TYPE_DOUBLE =>
    simp only [renderBase] at h
    split at h
    · exact hinteger (fun n => .int n.toInt) (fun _ => int _) h
    · rw [← Except.ok.inj h]
      exact double _

theorem renderElems_of_closed {t : ThriftType} {xs : List ConstValue} {ls : List Literal}
    (ih : ∀ x ∈ xs, ∀ l, renderConstValue scopes fuel t x = .ok l → P l)
    (h : renderElems scopes fuel t xs = .ok ls) : ∀ l ∈ ls, P l := by
  induction xs generalizing ls with
  | nil =>
    unfold renderElems at h
    rw [← Except.ok.inj h]
    exact fun l hl => absurd hl List.not_mem_nil
  | cons x xs ihxs =>
    unfold renderElems at h
    obtain ⟨l, hl, h⟩ := bind_ok h
    obtain ⟨ls', hls, h⟩ := bind_ok h
    rw [← Except.ok.inj h]
    exact List.forall_mem_cons.mpr ⟨ih x (by simp) l hl,
      ihxs (fun y hy => ih y (by simp [hy])) hls⟩

theorem renderEntries_of_closed {k v : ThriftType} {es : List (ConstValue × ConstValue)}
    {ls : List (Literal × Literal)}
    (ih : ∀ e ∈ es, (∀ t l, renderConstValue scopes fuel t e.1 = .ok l → P l) ∧
      ∀ t l, renderConstValue scopes fuel t e.2 = .ok l → P l)
    (h : renderEntries scopes fuel k v es = .ok ls) : ∀ l ∈ ls, P l.1 ∧ P l.2 := by
  induction es generalizing ls with
  | nil =>
    unfold renderEntries at h
    rw [← Except.ok.inj h]
    exact fun l hl => absurd hl List.not_mem_nil
  | cons e es ihes =>
    obtain ⟨x, y⟩ := e
    obtain ⟨hx, hy⟩ := ih (x, y) (by simp)
    unfold renderEntries at h
    obtain ⟨a, ha, h⟩ := bind_ok h
    obtain ⟨b, hb, h⟩ := bind_ok h
    obtain ⟨ls', hls, h⟩ := bind_ok h
    rw [← Except.ok.inj h]
    exact List.forall_mem_cons.mpr ⟨⟨hx k a ha, hy v b hb⟩,
      ihes (fun e he => ih e (by simp [he])) hls⟩

theorem renderFields_of_closed (percentQ : ∀ s, P (.percentQ s)) {s : TStruct}
    {es : List (ConstValue × ConstValue)} {ls : List (Literal × Literal)}
    (ih : ∀ e ∈ es, ∀ t l, renderConstValue scopes fuel t e.2 = .ok l → P l)
    (h : renderFields scopes fuel s es = .ok ls) : ∀ l ∈ ls, P l.1 ∧ P l.2 := by
  induction es generalizing ls with
  | nil =>
    unfold renderFields at h
    rw [← Except.ok.inj h]
    exact fun l hl => absurd hl List.not_mem_nil
  | cons e es ihes =>
    obtain ⟨x, y⟩ := e
    unfold renderFields at h
    cases hm : memberType s x.stringVal with
    | none =>
      rw [hm] at h
      cases h
    | some m =>
      rw [hm] at h
      obtain ⟨b, hb, h⟩ := bind_ok h
      obtain ⟨ls', hls, h⟩ := bind_ok h
      rw [← Except.ok.inj h]
      exact List.forall_mem_cons.mpr ⟨⟨percentQ _, ih (x, y) (by simp) m b hb⟩,
        ihes (fun e he => ih e (by simp [he])) hls⟩

theorem renderConstValue_of_closed (percentQ : ∀ s, P (.percentQ s)) (bool : ∀ b, P (.bool b))
    (int : ∀ n, P (.int n)) (double : ∀ d, P (.double d))
    (array : ∀ ls, (∀ l ∈ ls, P l) → P (.array ls)) (set : ∀ ls, (∀ l ∈ ls, P l) → P (.set ls))
    (hash : ∀ ls, (∀ l ∈ ls, P l.1 ∧ P l.2) → P (.hash ls))
    (new : ∀ path ls, (∀ l ∈ ls, P l.1 ∧ P l.2) → P (.new path ls)) (cv : ConstValue) :
    ∀ t l, renderConstValue scopes fuel t cv = .ok l → P l := by
  induction cv using ConstValue.induct with
  | mk cv ihmap ihlist =>
    obtain ⟨vt, es, xs, str, n, d, i, tenum⟩ := cv
    intro t l h
    unfold renderConstValue at h
    obtain ⟨u, hu, h⟩ := bind_ok h
    cases u with
    | baseType base bin => exact renderBase_of_closed percentQ bool int double h
    | enum e =>
      obtain ⟨m, -, h⟩ := bind_ok h
      rw [← Except.ok.inj h]
      exact int _
    | struct s =>
      obtain ⟨ls, hls, h⟩ := bind_ok h
      rw [← Except.ok.inj h]
      exact new _ _ (renderFields_of_closed percentQ (fun e he => (ihmap e he).2) hls)
    | map k v =>
      obtain ⟨ls, hls, h⟩ := bind_ok h
      rw [← Except.ok.inj h]
      exact hash _ (renderEntries_of_closed ihmap hls)
    | list elem =>
      obtain ⟨ls, hls, h⟩ := bind_ok h
      rw [← Except.ok.inj h]
      exact array _ (renderElems_of_closed (fun x hx => ihlist x hx elem) hls)
    | set elem =>
      obtain ⟨ls, hls, h⟩ := bind_ok h
      rw [← Except.ok.inj h]
      exact set _ (renderElems_of_closed (fun x hx => ihlist x hx elem) hls)
    | typedef p name t => cases h
    | forwardTypedef p name => cases h

theorem enumModulesOfList_nil {ls : List Literal} (h : ∀ l ∈ ls, l.enumModules = []) :
    Literal.enumModulesOfList ls = [] := by
  induction ls with
  | nil => rfl
  | cons l ls ih =>
    obtain ⟨hl, hls⟩ := List.forall_mem_cons.mp h
    rw [Literal.enumModulesOfList, hl, ih hls, List.append_nil]

theorem enumModulesOfEntries_nil {ls : List (Literal × Literal)}
    (h : ∀ l ∈ ls, l.1.enumModules = [] ∧ l.2.enumModules = []) :
    Literal.enumModulesOfEntries ls = [] := by
  induction ls with
  | nil => rfl
  | cons l ls ih =>
    obtain ⟨hl, hls⟩ := List.forall_mem_cons.mp h
    rw [Literal.enumModulesOfEntries, hl.1, hl.2, ih hls]
    rfl

theorem renderConstValue_enumModules {t : ThriftType} {cv : ConstValue} {l : Literal}
    (h : renderConstValue scopes fuel t cv = .ok l) : l.enumModules = [] := by
  refine renderConstValue_of_closed (P := fun l => l.enumModules = []) ?_ ?_ ?_ ?_ ?_ ?_ ?_ ?_
    cv t l h
  · exact fun _ => rfl
  · exact fun _ => rfl
  · exact fun _ => rfl
  · exact fun _ => rfl
  · exact fun _ hls => enumModulesOfList_nil hls
  · exact fun _ hls => enumModulesOfList_nil hls
  · exact fun _ hls => enumModulesOfEntries_nil hls
  · exact fun _ _ hls => enumModulesOfEntries_nil hls

theorem renderConstValue_named {t : ThriftType} {cv : ConstValue} {l : Literal}
    (h : renderConstValue scopes fuel t cv = .ok l) :
    (exprOf l).named = true ↔
      ∀ s, ValueRefers scopes t cv s → ConstantsIn [classPath s] := by
  rw [exprOf_named, renderConstValue_enumModules h]
  constructor
  · intro hnamed s hs
    exact constantsIn_singleton.mpr
      (hnamed.1 _ ((renderConstValue_emits cv t l h _).mpr ⟨s, hs, rfl⟩))
  · refine fun hnames => ⟨fun path hpath => ?_, constantsIn_nil⟩
    obtain ⟨s, hs, rfl⟩ := (renderConstValue_emits cv t l h path).mp hpath
    exact constantsIn_singleton.mp (hnames s hs)

end Closed

section Rendered
variable {scopes : String → Scope} {fuel : ℕ}

def denoted (s : String) : List Char := unescape '"' (escapeString s).toList

theorem stringsOf_base {base : TBase} {cv : ConstValue} {l : Literal}
    (h : renderBase base cv = .ok l) :
    stringsOf (exprOf l) = if base = .TYPE_STRING then [denoted cv.stringVal] else [] := by
  have hinteger : ∀ f : Int64 → Literal, (∀ n, stringsOf (exprOf (f n)) = []) →
      (do pure (f (← cv.getInteger)) : Compile Literal) = .ok l → stringsOf (exprOf l) = [] := by
    intro f hf h
    obtain ⟨n, -, h⟩ := bind_ok h
    rw [← Except.ok.inj h]
    exact hf n
  cases base with
  | TYPE_VOID => cases h
  | TYPE_STRING =>
    rw [← Except.ok.inj h]
    rfl
  | TYPE_BOOL => exact hinteger (fun n => .bool (decide (0 < n.toInt))) (fun _ => rfl) h
  | TYPE_BYTE | TYPE_I16 | TYPE_I32 | TYPE_I64 =>
    exact hinteger (fun n => .int n.toInt) (fun _ => rfl) h
  | TYPE_DOUBLE =>
    simp only [renderBase] at h
    split at h
    · exact hinteger (fun n => .int n.toInt) (fun _ => rfl) h
    · rw [← Except.ok.inj h]
      rfl

theorem stringsOf_elems {t : ThriftType} {xs : List ConstValue} {ls : List Literal}
    (ih : ∀ x ∈ xs, ∀ l, renderConstValue scopes fuel t x = .ok l →
      stringsOf (exprOf l) = (stringConstants scopes fuel t x).map denoted)
    (h : renderElems scopes fuel t xs = .ok ls) :
    stringsOfElems (exprsOf ls) = (elemStrings scopes fuel t xs).map denoted := by
  induction xs generalizing ls with
  | nil =>
    unfold renderElems at h
    rw [← Except.ok.inj h]
    rfl
  | cons x xs ihxs =>
    unfold renderElems at h
    obtain ⟨l, hl, h⟩ := bind_ok h
    obtain ⟨ls', hls, h⟩ := bind_ok h
    rw [← Except.ok.inj h]
    unfold exprsOf stringsOfElems elemStrings
    rw [List.map_append, ih x (by simp) l hl, ihxs (fun y hy => ih y (by simp [hy])) hls]

theorem stringsOf_entries {k v : ThriftType} {es : List (ConstValue × ConstValue)}
    {ls : List (Literal × Literal)}
    (ih : ∀ e ∈ es, (∀ t l, renderConstValue scopes fuel t e.1 = .ok l →
      stringsOf (exprOf l) = (stringConstants scopes fuel t e.1).map denoted) ∧
        ∀ t l, renderConstValue scopes fuel t e.2 = .ok l →
          stringsOf (exprOf l) = (stringConstants scopes fuel t e.2).map denoted)
    (h : renderEntries scopes fuel k v es = .ok ls) :
    stringsOfEntries (entriesOf ls) = (entryStrings scopes fuel k v es).map denoted := by
  induction es generalizing ls with
  | nil =>
    unfold renderEntries at h
    rw [← Except.ok.inj h]
    rfl
  | cons e es ihes =>
    obtain ⟨x, y⟩ := e
    obtain ⟨hx, hy⟩ := ih (x, y) (by simp)
    unfold renderEntries at h
    obtain ⟨a, ha, h⟩ := bind_ok h
    obtain ⟨b, hb, h⟩ := bind_ok h
    obtain ⟨ls', hls, h⟩ := bind_ok h
    rw [← Except.ok.inj h]
    unfold entriesOf stringsOfEntries entryStrings
    rw [List.map_append, List.map_append, hx k a ha, hy v b hb,
      ihes (fun e he => ih e (by simp [he])) hls]

theorem stringsOf_fields {s : TStruct} {es : List (ConstValue × ConstValue)}
    {ls : List (Literal × Literal)}
    (ih : ∀ e ∈ es, ∀ t l, renderConstValue scopes fuel t e.2 = .ok l →
      stringsOf (exprOf l) = (stringConstants scopes fuel t e.2).map denoted)
    (h : renderFields scopes fuel s es = .ok ls) :
    stringsOfEntries (entriesOf ls) = (fieldStrings scopes fuel s es).map denoted := by
  induction es generalizing ls with
  | nil =>
    unfold renderFields at h
    rw [← Except.ok.inj h]
    rfl
  | cons e es ihes =>
    obtain ⟨x, y⟩ := e
    unfold renderFields at h
    cases hm : memberType s x.stringVal with
    | none =>
      rw [hm] at h
      cases h
    | some m =>
      rw [hm] at h
      obtain ⟨b, hb, h⟩ := bind_ok h
      obtain ⟨ls', hls, h⟩ := bind_ok h
      rw [← Except.ok.inj h]
      have hfields : fieldStrings scopes fuel s ((x, y) :: es) =
          x.stringVal :: (stringConstants scopes fuel m y ++ fieldStrings scopes fuel s es) := by
        rw [fieldStrings, hm]
      unfold entriesOf stringsOfEntries
      rw [hfields, List.map_cons, List.map_append, ih (x, y) (by simp) m b hb,
        ihes (fun e he => ih e (by simp [he])) hls]
      rfl

theorem stringsOf_render (cv : ConstValue) : ∀ t l, renderConstValue scopes fuel t cv = .ok l →
    stringsOf (exprOf l) = (stringConstants scopes fuel t cv).map denoted := by
  induction cv using ConstValue.induct with
  | mk cv ihmap ihlist =>
    obtain ⟨vt, es, xs, str, n, d, i, tenum⟩ := cv
    intro t l h
    unfold renderConstValue at h
    obtain ⟨u, hu, h⟩ := bind_ok h
    unfold stringConstants
    rw [hu]
    cases u with
    | baseType base bin =>
      rw [stringsOf_base h]
      cases base <;> rfl
    | enum e =>
      obtain ⟨m, -, h⟩ := bind_ok h
      rw [← Except.ok.inj h]
      rfl
    | struct s =>
      obtain ⟨ls, hls, h⟩ := bind_ok h
      rw [← Except.ok.inj h]
      exact stringsOf_fields (fun e he => (ihmap e he).2) hls
    | map k v =>
      obtain ⟨ls, hls, h⟩ := bind_ok h
      rw [← Except.ok.inj h]
      exact stringsOf_entries ihmap hls
    | list elem =>
      obtain ⟨ls, hls, h⟩ := bind_ok h
      rw [← Except.ok.inj h]
      exact stringsOf_elems (fun x hx => ihlist x hx elem) hls
    | set elem =>
      obtain ⟨ls, hls, h⟩ := bind_ok h
      rw [← Except.ok.inj h]
      exact stringsOf_elems (fun x hx => ihlist x hx elem) hls
    | typedef p name t => cases h
    | forwardTypedef p name => cases h

/-- The literal printed for the string gives it back and ends at its own quote. -/
def Survives (s : String) : Prop :=
  ∀ rest, readQuoted '"' ((escapeString s).toList ++ '"' :: rest) = some (s.toList, rest)

theorem denoted_iff (s : String) : denoted s = s.toList ↔ Unbroken s := by
  unfold denoted Unbroken
  rw [unescape_escapeString, flatMap_readBack_iff]

theorem map_denoted_iff (ss : List String) :
    ss.map denoted = ss.map String.toList ↔ ∀ s ∈ ss, Unbroken s := by
  rw [List.map_inj_left]
  exact forall₂_congr fun s _ => denoted_iff s

/-- Every string constant of a value survives, each by itself and all of them in the text
    of the value, exactly when none holds a line break, a carriage return or a tab and every
    class of a struct in it has a name that Ruby takes for a constant. -/
theorem string_constants_survive_iff {depth : ℕ} {t : ThriftType} {cv : ConstValue}
    {text : List Char} (h : renderConstText scopes fuel depth t cv = .ok text)
    (hnames : ∀ s, ValueRefers scopes t cv s → IsPath (classPath s)) :
    ((∀ s ∈ stringConstants scopes fuel t cv, Survives s) ∧
      ∃ e, read text = some e ∧
        stringsOf e = (stringConstants scopes fuel t cv).map String.toList) ↔
      (∀ s ∈ stringConstants scopes fuel t cv, Unbroken s) ∧
        ∀ s, ValueRefers scopes t cv s → ConstantsIn [classPath s] := by
  obtain ⟨l, hl, hspells⟩ : ∃ l, renderConstValue scopes fuel t cv = .ok l ∧
      SpellsLiteral text l := by
    have hboth := @renderConstText_spells scopes fuel cv depth t
    rw [h] at hboth
    exact hboth.ok_left
  have hpaths : PathsIn l.classes := by
    intro path hpath
    obtain ⟨s, hs, rfl⟩ := (renderConstValue_emits cv t l hl path).mp hpath
    exact hnames s hs
  have hread := hspells hpaths
  have hstrings := stringsOf_render cv t l hl
  rw [← renderConstValue_named hl]
  constructor
  · rintro ⟨-, e, he, hsame⟩
    obtain ⟨rfl, hnamed⟩ := hread.read_iff.mp he
    exact ⟨(map_denoted_iff _).mp (hstrings.symm.trans hsame), hnamed⟩
  · rintro ⟨hunbroken, hnamed⟩
    refine ⟨fun s hs => (readQuoted_escapeString_iff s).mpr (hunbroken s hs), exprOf l,
      hread.read hnamed, ?_⟩
    rw [hstrings]
    exact (map_denoted_iff _).mpr hunbroken

end Rendered

def stringType : ThriftType := .baseType .TYPE_STRING false

def stringConst (s : String) : ConstValue := { valType := .CV_STRING, stringVal := s }

def quotesAndSlashes : ConstValue :=
  { valType := .CV_LIST, listVal := [stringConst "say \"hi\"", stringConst "C:\\dir\\"] }

theorem quotesAndSlashes_render :
    renderConstText noScopes 1 0 (.list stringType) quotesAndSlashes =
      .ok "[\n  %q\"say \\\"hi\\\"\",\n  %q\"C:\\\\dir\\\\\",\n]".toList := rfl

theorem quotesAndSlashes_refers (s : TStruct) :
    ¬ ValueRefers noScopes (.list stringType) quotesAndSlashes s := by
  intro hs
  have hclasses := @renderConstValue_emits noScopes 1 quotesAndSlashes
    (.list stringType) _ rfl (classPath s)
  cases hclasses.mpr ⟨s, hs, rfl⟩

theorem quotesAndSlashes_survive :
    ((∀ s ∈ stringConstants noScopes 1 (.list stringType) quotesAndSlashes, Survives s) ∧
      ∃ e, read ("[\n  %q\"say \\\"hi\\\"\",\n  %q\"C:\\\\dir\\\\\",\n]").toList = some e ∧
        stringsOf e = ["say \"hi\"".toList, "C:\\dir\\".toList]) ↔
      (∀ s ∈ stringConstants noScopes 1 (.list stringType) quotesAndSlashes, Unbroken s) ∧
        ∀ s, ValueRefers noScopes (.list stringType) quotesAndSlashes s →
          ConstantsIn [classPath s] :=
  string_constants_survive_iff quotesAndSlashes_render fun s hs =>
    absurd hs (quotesAndSlashes_refers s)

/-- A line break, written as IDL has it, comes back as a backslash and an `n`. -/
theorem newline_lost :
    tokLiteral '"' "a\\nb\"".toList = .ok ("a\nb", []) ∧ ¬ Survives "a\nb" ∧
      ∃ text, renderConstText noScopes 1 0 stringType (stringConst "a\nb") = .ok text ∧
        ∃ e, read text = some e ∧ stringsOf e = ["a\\nb".toList] := by
  refine ⟨rfl, ?_, _, rfl, _, (spells_percentQ (escapeString_inside _)).spells.read rfl, rfl⟩
  intro h
  have hunbroken := (readQuoted_escapeString_iff _).mp h
  revert hunbroken
  decide

end Sparsam.StringConstants
