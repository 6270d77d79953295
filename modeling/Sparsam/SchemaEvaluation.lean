import Sparsam.ClassReferences
import Sparsam.FieldLists
import Sparsam.ListPairing
import Sparsam.ObjectAgreement
import Sparsam.RubyStrings

set_option autoImplicit false

/-!
# Evaluating the schema

Ruby evaluates the literal of `FIELDS` while the class body runs, and
`createFieldInfo` reads the hashes it leaves. The field definition it makes of
a member mirrors the member's type with all typedefs opened.
-/
namespace Sparsam.SchemaEvaluation
open ListPairing ThriftTypes ThriftScope ThriftParser RubyNames SchemaLiteral ClassReferences
open FieldLists WireProtocol RubyRuntime FieldInfoCache ObjectAgreement RubyStrings

def isContinuation (lo hi : ℕ) (b : UInt8) : Bool := decide (lo ≤ b.toNat ∧ b.toNat ≤ hi)

/-- The bytes are UTF-8, without which a literal has an invalid character. -/
def validUtf8 : List UInt8 → Bool
  | [] => true
  | b :: rest =>
    if b.toNat < 0x80 then validUtf8 rest
    else
      match rest with
      | [] => false
      | c :: rest =>
        if 0xc2 ≤ b.toNat ∧ b.toNat ≤ 0xdf then isContinuation 0x80 0xbf c && validUtf8 rest
        else
          match rest with
          | [] => false
          | d :: rest =>
            if 0xe0 ≤ b.toNat ∧ b.toNat ≤ 0xef then
              -- no overlong form and no surrogate
              isContinuation (if b.toNat = 0xe0 then 0xa0 else 0x80)
                (if b.toNat = 0xed then 0x9f else 0xbf) c && isContinuation 0x80 0xbf d &&
                validUtf8 rest
            else
              match rest with
              | [] => false
              | e :: rest =>
                decide (0xf0 ≤ b.toNat ∧ b.toNat ≤ 0xf4) &&
                  isContinuation (if b.toNat = 0xf0 then 0x90 else 0x80)
                    (if b.toNat = 0xf4 then 0x8f else 0xbf) c &&
                  isContinuation 0x80 0xbf d && isContinuation 0x80 0xbf e && validUtf8 rest

def bytesOf (cs : List Char) : List UInt8 := cs.map fun c => UInt8.ofNat c.toNat

/-- The text between the delimiters of a literal, which ends where the text does. -/
def stringLiteral (delim : Char) (text : String) : Option Value :=
  if validUtf8 (bytesOf text.toList) then
    match readQuoted delim (text.toList ++ [delim]) with
    | some (cs, []) => some (.str .utf8 (bytesOf cs))
    | _ => none
  else none

/-- The characters that `tok_identifier` matches. -/
def IsIdentifier (s : String) : Prop :=
  s ≠ "" ∧ ∀ c ∈ s.toList, c.isAlphanum = true ∨ c = '_' ∨ c = '.'

instance (s : String) : Decidable (IsIdentifier s) :=
  @instDecidableAnd (s ≠ "") _ inferInstance (List.decidableBAll _ _)

theorem identifier_char {c : Char} (h : c.isAlphanum = true ∨ c = '_' ∨ c = '.') :
    c.toNat < 128 ∧ c ≠ '\\' ∧ c ≠ Char.ofNat 39 := by
  rcases h with h | rfl | rfl
  · refine ⟨?_, ?_, ?_⟩
    · delta Char.isAlphanum Char.isAlpha Char.isUpper Char.isLower Char.isDigit at h
      simp only [Bool.or_eq_true, Bool.and_eq_true, decide_eq_true_eq, ge_iff_le,
        UInt32.le_iff_toNat_le] at h
      have hlast : 'Z'.val.toNat = 90 ∧ 'z'.val.toNat = 122 ∧ '9'.val.toNat = 57 := by decide
      change c.val.toNat < 128
      omega
    · rintro rfl
      simp at h
    · rintro rfl
      simp at h
  · decide
  · decide

theorem validUtf8_ascii {bs : List UInt8} (h : ∀ b ∈ bs, b.toNat < 128) : validUtf8 bs = true := by
  induction bs with
  | nil => rfl
  | cons b bs ih =>
    unfold validUtf8
    rw [if_pos (h b (by simp))]
    exact ih fun c hc => h c (List.mem_cons_of_mem _ hc)

theorem stringLiteral_identifier {s : String} (h : IsIdentifier s) :
    stringLiteral (Char.ofNat 39) s = some (.str .utf8 (bytesOf s.toList)) ∧
      internStr (bytesOf s.toList) = s := by
  have hchars : ∀ c ∈ s.toList, c.toNat < 128 ∧ c ≠ '\\' ∧ c ≠ Char.ofNat 39 :=
    fun c hc => identifier_char (h.2 c hc)
  constructor
  · have hascii : ∀ b ∈ bytesOf s.toList, b.toNat < 128 := by
      intro b hb
      obtain ⟨c, hc, rfl⟩ := List.mem_map.mp hb
      have hlt := (hchars c hc).1
      rw [UInt8.toNat_ofNat']
      omega
    unfold stringLiteral
    rw [if_pos (validUtf8_ascii hascii), readQuoted_literal fun c hc => (hchars c hc).2.symm]
  · unfold internStr bytesOf
    rw [List.map_map]
    have hid : ∀ c ∈ s.toList, ((fun b : UInt8 => Char.ofNat b.toNat) ∘
        fun c : Char => UInt8.ofNat c.toNat) c = c := by
      intro c hc
      have hlt := (hchars c hc).1
      rw [Function.comp_apply, UInt8.toNat_ofNat', Nat.mod_eq_of_lt (by omega), Char.ofNat_toNat]
    rw [List.map_congr_left hid, List.map_id', String.ofList_toList]

def typesConstant : String → Option TType
  | "STOP" => some .STOP
  | "VOID" => some .VOID
  | "BOOL" => some .BOOL
  | "BYTE" => some .BYTE
  | "DOUBLE" => some .DOUBLE
  | "I16" => some .I16
  | "I32" => some .I32
  | "I64" => some .I64
  | "STRING" => some .STRING
  | "STRUCT" => some .STRUCT
  | "MAP" => some .MAP
  | "SET" => some .SET
  | "LIST" => some .LIST
  | _ => none

/-- What a literal is evaluated in: the constants that are defined so far, what Ruby
    reads where `out << d` printed a double, and `K.new(hash)`. -/
structure Environment where
  classes : List String → Option VALUE
  enumModules : List String → Option Value
  isUnion : VALUE → Bool
  double : UInt64 → Option Value
  new : VALUE → List (Value × Value) → Option Value

namespace Environment
variable (env : Environment)

def hashNew (kvs : List (Value × Value)) : List (Value × Value) :=
  kvs.foldl (fun h e => hashAset env.isUnion h e.1 e.2) []

mutual
/-- `none` is a literal that does not evaluate. -/
def eval : Literal → Option Value
  | .percentQ text => stringLiteral '"' text
  | .quoted text => stringLiteral (Char.ofNat 39) text
  | .bool b => some (.bool b)
  | .int n => some (.int n)
  | .double d => env.double d
  | .sym name => some (.sym name)
  | .types name => (typesConstant name.text).map fun t => .int t.toInt
  | .klass path => (env.classes path).map .klass
  | .enumModule path => env.enumModules path
  | .array xs => (evalElems xs).map .ary
  | .set xs => (evalElems xs).map fun ys => .set (setNew env.isUnion ys)
  | .hash es => (evalEntries es).map fun kvs => .hash (env.hashNew kvs)
  | .new path es =>
    (env.classes path).bind fun k => (evalEntries es).bind fun kvs => env.new k (env.hashNew kvs)

def evalElems : List Literal → Option (List Value)
  | [] => some []
  | x :: xs => (eval x).bind fun y => (evalElems xs).map (y :: ·)

def evalEntries : List (Literal × Literal) → Option (List (Value × Value))
  | [] => some []
  | (k, v) :: es =>
    (eval k).bind fun key => (eval v).bind fun value =>
      (evalEntries es).map ((key, value) :: ·)
end

end Environment

section Entries
variable {env : Environment}

theorem hashAref_hashAset (isUnion : VALUE → Bool) (n k : ID) (v : Value)
    (es : List (Value × Value)) : hashAref n (hashAset isUnion es (.sym k) v) =
      if k = n then v else hashAref n es := by
  induction es with
  | nil =>
    simp only [hashAset, hashAref, isSym, beq_iff_eq]
  | cons e es ih =>
    obtain ⟨k', v'⟩ := e
    unfold hashAset
    split
    · rename_i hsame
      obtain rfl : k' = .sym k := by
        cases k' <;> simp [sameKey] at hsame
        rw [hsame]
      simp only [hashAref, isSym, beq_iff_eq]
      split <;> rfl
    · rename_i hother
      simp only [hashAref, ih]
      by_cases hkn : k = n
      · subst hkn
        have hk' : isSym k k' = false := by
          cases k' <;> simp [isSym]
          rintro rfl
          simp [sameKey] at hother
        simp [hk']
      · rw [if_neg hkn, if_neg hkn]

/-- The value of the last entry of that name. -/
def keyed (n : ID) : List (Value × Value) → Option Value
  | [] => none
  | (k, v) :: es => (keyed n es).or (if isSym n k then some v else none)

def SymKeys (kvs : List (Value × Value)) : Prop := ∀ e ∈ kvs, ∃ k, e.1 = .sym k

theorem hashAref_hashNew (n : ID) {kvs : List (Value × Value)} (h : SymKeys kvs) :
    hashAref n (env.hashNew kvs) = (keyed n kvs).getD .nil := by
  have hfold : ∀ (kvs acc : List (Value × Value)), SymKeys kvs →
      hashAref n (kvs.foldl (fun h e => hashAset env.isUnion h e.1 e.2) acc) =
        (keyed n kvs).getD (hashAref n acc) := by
    intro kvs
    induction kvs with
    | nil => exact fun acc _ => rfl
    | cons e kvs ih =>
      intro acc h
      obtain ⟨k, v⟩ := e
      obtain ⟨name, hname⟩ := h (k, v) (by simp)
      obtain rfl : k = .sym name := hname
      rw [List.foldl_cons, ih _ fun e he => h e (by simp [he]), hashAref_hashAset]
      rw [keyed]
      cases hrest : keyed n kvs with
      | some w => rfl
      | none =>
        simp only [isSym, beq_iff_eq, Option.none_or, Option.getD_none]
        split <;> rfl
  exact hfold kvs [] h

def entryAt (n : ID) : List (Literal × Literal) → Option Literal
  | [] => none
  | (.sym k, v) :: es => (entryAt n es).or (if k = n then some v else none)
  | _ :: es => entryAt n es

theorem entryAt_append (n : ID) (es es' : List (Literal × Literal)) :
    entryAt n (es ++ es') = (entryAt n es').or (entryAt n es) := by
  induction es with
  | nil => simp [entryAt]
  | cons e es ih =>
    obtain ⟨k, v⟩ := e
    cases k <;> simp [entryAt, ih, Option.or_assoc]

def LiteralSyms (es : List (Literal × Literal)) : Prop := ∀ e ∈ es, ∃ k, e.1 = .sym k

theorem evalEntries_syms {es : List (Literal × Literal)} {kvs : List (Value × Value)}
    (hes : LiteralSyms es) (h : env.evalEntries es = some kvs) :
    SymKeys kvs ∧ ∀ n, (entryAt n es).map env.eval = (keyed n kvs).map some := by
  induction es generalizing kvs with
  | nil =>
    unfold Environment.evalEntries at h
    obtain rfl := Option.some.inj h
    exact ⟨fun e he => absurd he List.not_mem_nil, fun n => rfl⟩
  | cons e es ih =>
    obtain ⟨k, v⟩ := e
    obtain ⟨name, hname⟩ := hes (k, v) (by simp)
    obtain rfl : k = .sym name := hname
    unfold Environment.evalEntries at h
    obtain ⟨key, hkey, h⟩ := Option.bind_eq_some_iff.mp h
    obtain ⟨value, hvalue, h⟩ := Option.bind_eq_some_iff.mp h
    obtain ⟨rest, hrest, rfl⟩ := Option.map_eq_some_iff.mp h
    unfold Environment.eval at hkey
    obtain rfl := Option.some.inj hkey
    obtain ⟨hsyms, hentries⟩ := ih (fun e he => hes e (by simp [he])) hrest
    refine ⟨fun e he => ?_, fun n => ?_⟩
    · rcases List.mem_cons.mp he with rfl | he
      · exact ⟨name, rfl⟩
      · exact hsyms e he
    · have hn := hentries n
      simp only [entryAt, keyed, isSym, beq_iff_eq]
      cases hentry : entryAt n es with
      | some l =>
        rw [hentry] at hn
        cases hkeyed : keyed n rest with
        | none =>
          rw [hkeyed] at hn
          cases hn
        | some w =>
          rw [hkeyed] at hn
          exact hn
      | none =>
        rw [hentry] at hn
        cases hkeyed : keyed n rest with
        | some w =>
          rw [hkeyed] at hn
          cases hn
        | none =>
          simp only [Option.none_or]
          split
          · exact congrArg some hvalue
          · rfl

theorem hashAref_eval {es : List (Literal × Literal)} {kvs : List (Value × Value)}
    (hes : LiteralSyms es) (h : env.evalEntries es = some kvs) (n : ID) :
    (∀ l, entryAt n es = some l → env.eval l = some (hashAref n (env.hashNew kvs))) ∧
      (entryAt n es = none → hashAref n (env.hashNew kvs) = .nil) := by
  obtain ⟨hsyms, hentries⟩ := evalEntries_syms hes h
  have hn := hentries n
  rw [hashAref_hashNew n hsyms]
  constructor
  · intro l hl
    rw [hl] at hn
    cases hkeyed : keyed n kvs with
    | none =>
      rw [hkeyed] at hn
      cases hn
    | some w =>
      rw [hkeyed] at hn
      exact Option.some.inj hn
  · intro hnone
    rw [hnone] at hn
    cases hkeyed : keyed n kvs with
    | none => rfl
    | some w =>
      rw [hkeyed] at hn
      cases hn

theorem createFieldInfoAt_eq (n : ID) (es : List (Value × Value)) :
    createFieldInfoAt n es = createFieldInfo (hashAref n es) := by
  induction es with
  | nil => rfl
  | cons e es ih =>
    obtain ⟨k, v⟩ := e
    unfold createFieldInfoAt hashAref
    rw [ih]
    split <;> rfl

end Entries

/-- `typeToEnum` of a base type. -/
def baseTType : TBase → TType
  | .TYPE_VOID => .VOID
  | .TYPE_STRING => .STRING
  | .TYPE_BOOL => .BOOL
  | .TYPE_BYTE => .BYTE
  | .TYPE_I16 => .I16
  | .TYPE_I32 => .I32
  | .TYPE_I64 => .I64
  | .TYPE_DOUBLE => .DOUBLE

/-- The field definition has this type, names no class and holds no other definition. -/
structure Leaf (fi : FieldInfo) (ftype : TType) (isBinary : Bool) : Prop where
  ftype : fi.ftype = ftype
  isBinaryString : fi.isBinaryString = isBinary
  klass : fi.klass = 0
  elementType : fi.elementType = none
  keyType : fi.keyType = none

/-- The field definition has the shape of the type, with typedefs opened at every level. -/
inductive Mirrors (scopes : String → Scope) (classes : List String → Option VALUE) :
    ThriftType → FieldInfo → Prop
  | base {t : ThriftType} {fi : FieldInfo} {b : TBase} {isBinary : Bool}
      (h : Expands scopes t (.baseType b isBinary)) (hvoid : b ≠ .TYPE_VOID)
      (leaf : Leaf fi (baseTType b) (isBinary && decide (b = .TYPE_STRING))) :
      Mirrors scopes classes t fi
  | enum {t : ThriftType} {fi : FieldInfo} {e : TEnum} (h : Expands scopes t (.enum e))
      (leaf : Leaf fi .I32 false) : Mirrors scopes classes t fi
  | struct {t : ThriftType} {fi : FieldInfo} {s : TStruct} (h : Expands scopes t (.struct s))
      (ftype : fi.ftype = .STRUCT) (klass : classes (classPath s) = some fi.klass)
      (binary : fi.isBinaryString = false) (element : fi.elementType = none)
      (key : fi.keyType = none) : Mirrors scopes classes t fi
  | list {t e : ThriftType} {fi ei : FieldInfo} (h : Expands scopes t (.list e))
      (ftype : fi.ftype = .LIST) (klass : fi.klass = 0) (binary : fi.isBinaryString = false)
      (element : fi.elementType = some ei) (key : fi.keyType = none)
      (elem : Mirrors scopes classes e ei) : Mirrors scopes classes t fi
  | set {t e : ThriftType} {fi ei : FieldInfo} (h : Expands scopes t (.set e))
      (ftype : fi.ftype = .SET) (klass : fi.klass = 0) (binary : fi.isBinaryString = false)
      (element : fi.elementType = some ei) (key : fi.keyType = none)
      (elem : Mirrors scopes classes e ei) : Mirrors scopes classes t fi
  | map {t k v : ThriftType} {fi ki vi : FieldInfo} (h : Expands scopes t (.map k v))
      (ftype : fi.ftype = .MAP) (klass : fi.klass = 0) (binary : fi.isBinaryString = false)
      (element : fi.elementType = some vi) (key : fi.keyType = some ki)
      (keyElem : Mirrors scopes classes k ki) (elem : Mirrors scopes classes v vi) :
      Mirrors scopes classes t fi

section FieldData
variable {scopes : String → Scope} {fuel : ℕ} {env : Environment}

theorem literalSyms_append {es es' : List (Literal × Literal)} (h : LiteralSyms es)
    (h' : LiteralSyms es') : LiteralSyms (es ++ es') := by
  intro e he
  rcases List.mem_append.mp he with he | he
  · exact h e he
  · exact h' e he

/-- The entries that `generate_field_data` prints around those of the type. -/
structure Around (name : String) (optional : Bool) (ttype : Literal)
    (entries es : List (Literal × Literal)) : Prop where
  syms : LiteralSyms es
  type : entryAt "type" es = some ttype
  name : entryAt "name" es = if name = "" then none else some (.quoted name)
  optional : entryAt "optional" es = if optional then some (.bool true) else none
  others : ∀ n ∈ ["binary", "class", "element", "key", "value"],
    entryAt n es = entryAt n entries

/-- The entries are all for one of these names. -/
def KeysIn (names : List ID) (es : List (Literal × Literal)) : Prop :=
  ∀ e ∈ es, ∃ k ∈ names, e.1 = .sym k

theorem KeysIn.syms {names : List ID} {es : List (Literal × Literal)} (h : KeysIn names es) :
    LiteralSyms es := fun e he => by
  obtain ⟨k, -, hk⟩ := h e he
  exact ⟨k, hk⟩

theorem KeysIn.entryAt {names : List ID} {es : List (Literal × Literal)} (h : KeysIn names es)
    {n : ID} (hn : n ∉ names) : entryAt n es = none := by
  induction es with
  | nil => rfl
  | cons e es ih =>
    obtain ⟨key, v⟩ := e
    obtain ⟨k, hk, hkey⟩ := h (key, v) (by simp)
    obtain rfl : key = .sym k := hkey
    have hne : k ≠ n := fun heq => hn (heq ▸ hk)
    unfold SchemaEvaluation.entryAt
    rw [ih fun e he => h e (by simp [he]), if_neg hne]
    rfl

theorem typeEntries_keys {nested : ThriftType → Compile Literal} {u : ThriftType}
    {entries : List (Literal × Literal)} (h : typeEntries nested u = .ok entries) :
    KeysIn ["binary", "class", "element", "key", "value"] entries := by
  cases u with
  | baseType b isBinary =>
    obtain rfl := Except.ok.inj h
    cases isBinary <;> simp [KeysIn]
  | struct s =>
    obtain rfl := Except.ok.inj h
    simp [KeysIn]
  | list e =>
    obtain ⟨l, -, h⟩ := bind_ok h
    obtain rfl := Except.ok.inj h
    simp [KeysIn]
  | set e =>
    obtain ⟨l, -, h⟩ := bind_ok h
    obtain rfl := Except.ok.inj h
    simp [KeysIn]
  | map k v =>
    obtain ⟨lk, -, h⟩ := bind_ok h
    obtain ⟨lv, -, h⟩ := bind_ok h
    obtain rfl := Except.ok.inj h
    simp [KeysIn]
  | enum e | typedef p s t | forwardTypedef p s =>
    obtain rfl := Except.ok.inj h
    simp [KeysIn]

theorem defaultEntry_keys {u : ThriftType} {value : Option ConstValue}
    {es : List (Literal × Literal)} (h : defaultEntry scopes fuel u value = .ok es) :
    KeysIn ["default"] es := by
  cases value with
  | none =>
    obtain rfl := Except.ok.inj h
    simp [KeysIn]
  | some cv =>
    obtain ⟨l, -, h⟩ := bind_ok h
    obtain rfl := Except.ok.inj h
    simp [KeysIn]

theorem around (args : FieldArgs) (u : ThriftType) (ttype : Literal)
    {default entries : List (Literal × Literal)} (hdefault : KeysIn ["default"] default)
    (hentries : KeysIn ["binary", "class", "element", "key", "value"] entries) :
    Around args.fieldName args.optional ttype entries
      ([(.sym "type", ttype)] ++
        (if args.fieldName = "" then [] else [(.sym "name", .quoted args.fieldName)]) ++ default ++
        entries ++ (if args.optional then [(.sym "optional", .bool true)] else []) ++
        enumEntry u ++ annotationsEntry args.annotations) := by
  have hname : KeysIn ["name"]
      (if args.fieldName = "" then [] else [(.sym "name", .quoted args.fieldName)]) := by
    split <;> simp [KeysIn]
  have hoptional : KeysIn ["optional"]
      (if args.optional then [(.sym "optional", .bool true)] else []) := by
    split <;> simp [KeysIn]
  have henum : KeysIn ["enum_class"] (enumEntry u) := by
    unfold enumEntry
    split <;> simp [KeysIn]
  have hannotations : KeysIn ["annotations"] (annotationsEntry args.annotations) := by
    unfold annotationsEntry
    split <;> simp [KeysIn]
  have htype : KeysIn ["type"] [(.sym "type", ttype)] := by simp [KeysIn]
  refine ⟨?_, ?_, ?_, ?_, ?_⟩
  · refine literalSyms_append (literalSyms_append (literalSyms_append (literalSyms_append
      (literalSyms_append (literalSyms_append htype.syms hname.syms) hdefault.syms) hentries.syms)
      hoptional.syms) henum.syms) hannotations.syms
  · simp only [entryAt_append, hname.entryAt (n := "type") (by decide),
      hdefault.entryAt (n := "type") (by decide), hentries.entryAt (n := "type") (by decide),
      hoptional.entryAt (n := "type") (by decide), henum.entryAt (n := "type") (by decide),
      hannotations.entryAt (n := "type") (by decide)]
    rfl
  · simp only [entryAt_append, htype.entryAt (n := "name") (by decide),
      hdefault.entryAt (n := "name") (by decide), hentries.entryAt (n := "name") (by decide),
      hoptional.entryAt (n := "name") (by decide), henum.entryAt (n := "name") (by decide),
      hannotations.entryAt (n := "name") (by decide)]
    split <;> rfl
  · simp only [entryAt_append, htype.entryAt (n := "optional") (by decide),
      hdefault.entryAt (n := "optional") (by decide), hname.entryAt (n := "optional") (by decide),
      hentries.entryAt (n := "optional") (by decide), henum.entryAt (n := "optional") (by decide),
      hannotations.entryAt (n := "optional") (by decide)]
    split <;> rfl
  · intro n hn
    have hout : ∀ name ∉ ["binary", "class", "element", "key", "value"], n ∉ [name] := by
      intro name hname heq
      rw [List.mem_singleton] at heq
      exact hname (heq ▸ hn)
    simp only [entryAt_append, htype.entryAt (hout "type" (by decide)),
      hname.entryAt (hout "name" (by decide)), hdefault.entryAt (hout "default" (by decide)),
      hoptional.entryAt (hout "optional" (by decide)),
      henum.entryAt (hout "enum_class" (by decide)),
      hannotations.entryAt (hout "annotations" (by decide)), Option.or_none, Option.none_or]

/-- The name under which the definition is printed, evaluated. -/
def nameValue (env : Environment) (name : String) (v : Value) : Prop :=
  if name = "" then v = .nil else env.eval (.quoted name) = some v

structure FieldInfoOf (scopes : String → Scope) (env : Environment) (type : ThriftType)
    (name : String) (optional : Bool) (fi : FieldInfo) : Prop where
  mirrors : Mirrors scopes env.classes type fi
  isOptional : fi.isOptional = optional
  named : ∃ v, nameValue env name v ∧ fi.symName = fieldNameToSym v ∧
    fi.ivarName = fieldNameToIvarId v

theorem rtest_entry {entry : Option Literal} {b : Bool} {v : Value}
    (hentry : entry = if b then some (.bool true) else none)
    (hsome : ∀ l, entry = some l → env.eval l = some v) (hnone : entry = none → v = .nil) :
    rtest v = b := by
  cases b with
  | true =>
    have hv := hsome _ hentry
    unfold Environment.eval at hv
    rw [← Option.some.inj hv]
    rfl
  | false =>
    rw [hnone hentry]
    rfl

/-- What the hash of a definition holds: the entries around those of the type, and these. -/
structure DefinitionHash (env : Environment) (args : FieldArgs) (ttype : Literal)
    (entries : List (Literal × Literal)) (entry : List (Value × Value)) : Prop where
  type : env.eval ttype = some (hashAref "type" entry)
  optional : rtest (hashAref "optional" entry) = args.optional
  named : nameValue env args.fieldName (hashAref "name" entry)
  held : ∀ n ∈ ["binary", "class", "element", "key", "value"],
    (∀ l, entryAt n entries = some l → env.eval l = some (hashAref n entry)) ∧
      (entryAt n entries = none → hashAref n entry = .nil)

theorem definitionHash_of_eval {args : FieldArgs} {ttype : Literal}
    {entries es : List (Literal × Literal)} {kvs : List (Value × Value)}
    (h : Around args.fieldName args.optional ttype entries es)
    (hkvs : env.evalEntries es = some kvs) :
    DefinitionHash env args ttype entries (env.hashNew kvs) := by
  have hfind := hashAref_eval h.syms hkvs
  refine ⟨(hfind "type").1 _ h.type,
    rtest_entry h.optional (hfind "optional").1 (hfind "optional").2, ?_, fun n hn => ?_⟩
  · unfold nameValue
    split
    · rename_i hempty
      exact (hfind "name").2 (h.name.trans (if_pos hempty))
    · rename_i hnonempty
      exact (hfind "name").1 _ (h.name.trans (if_neg hnonempty))
  · rw [← h.others n hn]
    exact hfind n

section Definitions
variable {t : ThriftType} {args : FieldArgs} {ttype : Literal}
  {entries : List (Literal × Literal)} {entry : List (Value × Value)}

theorem info_base {b : TBase} {isBinary : Bool} (ht : Expands scopes t (.baseType b isBinary))
    (htype : typeToEnum (.baseType b isBinary) = .ok ttype)
    (h : DefinitionHash env args ttype (if isBinary then [(.sym "binary", .bool true)] else [])
      entry) :
    ∃ fi, createFieldInfo (.hash entry) = some fi ∧
      FieldInfoOf scopes env t args.fieldName args.optional fi := by
  have hbinary : rtest (hashAref "binary" entry) = isBinary := by
    have hheld := h.held "binary" (by simp)
    apply rtest_entry _ hheld.1 hheld.2
    cases isBinary <;> rfl
  have hint : b ≠ .TYPE_VOID ∧ hashAref "type" entry = .int (baseTType b).toInt := by
    have hval := h.type
    cases b <;> first
      | (cases htype; done)
      | (obtain rfl := Except.ok.inj htype
         exact ⟨by decide, (Option.some.inj hval).symm⟩)
  refine ⟨{
      ftype := baseTType b
      isOptional := args.optional
      isBinaryString := isBinary && decide (b = .TYPE_STRING)
      ivarName := fieldNameToIvarId (hashAref "name" entry)
      symName := fieldNameToSym (hashAref "name" entry) }, ?_,
    .base ht hint.1 ⟨rfl, rfl, rfl, rfl, rfl⟩, rfl, _, h.named, rfl, rfl⟩
  unfold createFieldInfo
  rw [hint.2]
  cases b with
  | TYPE_STRING => simp [baseTType, TType.toInt, TType.ofInt, hbinary, h.optional]
  | TYPE_VOID => exact absurd rfl hint.1
  | _ => simp [baseTType, TType.toInt, TType.ofInt, h.optional]

theorem info_struct {s : TStruct} (ht : Expands scopes t (.struct s))
    (hint : hashAref "type" entry = .int 12)
    (h : DefinitionHash env args ttype [(.sym "class", .klass (constantPath s.program s.name))]
      entry) :
    ∃ fi, createFieldInfo (.hash entry) = some fi ∧
      FieldInfoOf scopes env t args.fieldName args.optional fi := by
  have hclass := (h.held "class" (by simp)).1 _ rfl
  unfold Environment.eval at hclass
  obtain ⟨k, hk, hclass⟩ := Option.map_eq_some_iff.mp hclass
  unfold createFieldInfo
  rw [hint]
  dsimp only [TType.ofInt]
  rw [← hclass]
  exact ⟨_, rfl, .struct ht rfl hk rfl rfl rfl, h.optional, _, h.named, rfl, rfl⟩

theorem info_list {e : ThriftType} {ei : FieldInfo} (ht : Expands scopes t (.list e))
    (hint : hashAref "type" entry = .int 15) (h : DefinitionHash env args ttype entries entry)
    (hei : createFieldInfo (hashAref "element" entry) = some ei)
    (helem : Mirrors scopes env.classes e ei) :
    ∃ fi, createFieldInfo (.hash entry) = some fi ∧
      FieldInfoOf scopes env t args.fieldName args.optional fi := by
  unfold createFieldInfo
  rw [hint]
  dsimp only [TType.ofInt]
  rw [createFieldInfoAt_eq, hei]
  exact ⟨_, rfl, .list ht rfl rfl rfl rfl rfl helem, h.optional, _, h.named, rfl, rfl⟩

theorem info_set {e : ThriftType} {ei : FieldInfo} (ht : Expands scopes t (.set e))
    (hint : hashAref "type" entry = .int 14) (h : DefinitionHash env args ttype entries entry)
    (hei : createFieldInfo (hashAref "element" entry) = some ei)
    (helem : Mirrors scopes env.classes e ei) :
    ∃ fi, createFieldInfo (.hash entry) = some fi ∧
      FieldInfoOf scopes env t args.fieldName args.optional fi := by
  unfold createFieldInfo
  rw [hint]
  dsimp only [TType.ofInt]
  rw [createFieldInfoAt_eq, hei]
  exact ⟨_, rfl, .set ht rfl rfl rfl rfl rfl helem, h.optional, _, h.named, rfl, rfl⟩

theorem info_map {k v : ThriftType} {ki vi : FieldInfo} (ht : Expands scopes t (.map k v))
    (hint : hashAref "type" entry = .int 13) (h : DefinitionHash env args ttype entries entry)
    (hki : createFieldInfo (hashAref "key" entry) = some ki)
    (hvi : createFieldInfo (hashAref "value" entry) = some vi)
    (hkey : Mirrors scopes env.classes k ki) (helem : Mirrors scopes env.classes v vi) :
    ∃ fi, createFieldInfo (.hash entry) = some fi ∧
      FieldInfoOf scopes env t args.fieldName args.optional fi := by
  unfold createFieldInfo
  rw [hint]
  dsimp only [TType.ofInt]
  rw [createFieldInfoAt_eq "key", createFieldInfoAt_eq "value", hki, hvi]
  exact ⟨_, rfl, .map ht rfl rfl rfl rfl rfl hkey helem, h.optional, _, h.named, rfl, rfl⟩

end Definitions

/-- The induction is on the depth: the definitions of elements, keys and values are one
    level deeper. -/
theorem createFieldInfo_generated (depth : ℕ) {t : ThriftType} {args : FieldArgs} {lit : Literal}
    {v : Value} (h : generateFieldData scopes fuel depth t args = .ok lit)
    (hv : env.eval lit = some v) :
    ∃ fi, createFieldInfo v = some fi ∧
      FieldInfoOf scopes env t args.fieldName args.optional fi := by
  induction depth generalizing t args lit v with
  | zero => cases h
  | succ depth ih =>
    unfold generateFieldData at h
    obtain ⟨u, hu, h⟩ := bind_ok h
    obtain ⟨ttype, htype, h⟩ := bind_ok h
    obtain ⟨default, hdefault, h⟩ := bind_ok h
    obtain ⟨entries, hentries, h⟩ := bind_ok h
    obtain rfl := Except.ok.inj h
    have ht : Expands scopes t u := ⟨fuel, hu⟩
    unfold Environment.eval at hv
    obtain ⟨kvs, hkvs, rfl⟩ := Option.map_eq_some_iff.mp hv
    have hhash := definitionHash_of_eval
      (around args u ttype (defaultEntry_keys hdefault) (typeEntries_keys hentries)) hkvs
    generalize env.hashNew kvs = entry at hhash ⊢
    have hval := hhash.type
    cases u with
    | baseType b isBinary =>
      obtain rfl := Except.ok.inj hentries
      exact info_base ht htype hhash
    | enum e =>
      obtain rfl := Except.ok.inj htype
      have hint : hashAref "type" entry = .int 8 := (Option.some.inj hval).symm
      unfold createFieldInfo
      rw [hint]
      exact ⟨_, rfl, .enum ht ⟨rfl, rfl, rfl, rfl, rfl⟩, hhash.optional, _, hhash.named, rfl, rfl⟩
    | struct s =>
      obtain rfl := Except.ok.inj htype
      obtain rfl := Except.ok.inj hentries
      exact info_struct ht (Option.some.inj hval).symm hhash
    | list e =>
      obtain rfl := Except.ok.inj htype
      obtain ⟨l, hl, hentries⟩ := bind_ok hentries
      obtain rfl := Except.ok.inj hentries
      obtain ⟨ei, hei, helem⟩ := ih hl ((hhash.held "element" (by simp)).1 _ rfl)
      exact info_list ht (Option.some.inj hval).symm hhash hei helem.mirrors
    | set e =>
      obtain rfl := Except.ok.inj htype
      obtain ⟨l, hl, hentries⟩ := bind_ok hentries
      obtain rfl := Except.ok.inj hentries
      obtain ⟨ei, hei, helem⟩ := ih hl ((hhash.held "element" (by simp)).1 _ rfl)
      exact info_set ht (Option.some.inj hval).symm hhash hei helem.mirrors
    | map k v =>
      obtain rfl := Except.ok.inj htype
      obtain ⟨lk, hlk, hentries⟩ := bind_ok hentries
      obtain ⟨lv, hlv, hentries⟩ := bind_ok hentries
      obtain rfl := Except.ok.inj hentries
      obtain ⟨ki, hki, hkey⟩ := ih hlk ((hhash.held "key" (by simp)).1 _ rfl)
      obtain ⟨vi, hvi, helem⟩ := ih hlv ((hhash.held "value" (by simp)).1 _ rfl)
      exact info_map ht (Option.some.inj hval).symm hhash hki hvi hkey.mirrors helem.mirrors
    | typedef p x t => cases htype
    | forwardTypedef p x => cases htype

def MemberInfo (scopes : String → Scope) (env : Environment) (f : TField) (fi : FieldInfo) : Prop :=
  FieldInfoOf scopes env f.type f.name (decide (f.req = .T_OPTIONAL)) fi

/-- The entries of the table, where the key is narrowed to 16 bits. -/
def tableEntries (es : List (TField × FieldInfo)) : List (Int16 × FieldInfo) :=
  es.map fun e => (Int16.ofInt e.1.key.toInt, e.2)

theorem fix2int_key (key : Int32) : fix2int (.int key.toInt) = some key.toInt :=
  if_pos ⟨key.le_toInt, key.toInt_lt⟩

theorem pairwise_of_keys (isUnion : VALUE → Bool) {fs : List TField} {kvs : List (Value × Value)}
    (h : List.Forall₂ (fun f d => d.1 = .int f.key.toInt) fs kvs)
    (hkeys : (fs.map TFieldOf.key).Nodup) :
    kvs.Pairwise fun a b => sameKey isUnion a.1 b.1 = false := by
  induction h with
  | nil => exact .nil
  | @cons f d fs kvs hd hrest ih =>
    rw [List.map_cons, List.nodup_cons] at hkeys
    refine .cons (fun b hb => ?_) (ih hkeys.2)
    obtain ⟨g, hg, hgb⟩ := mem_of_forall₂ hrest hb
    have hne : f.key.toInt ≠ g.key.toInt := fun heq =>
      hkeys.1 (Int32.toInt_inj.mp heq ▸ List.mem_map_of_mem hg)
    rw [hd, hgb]
    simpa [sameKey] using hne

theorem createFieldInfoMap_eq {fs : List TField} {kvs : List (Value × Value)} {fis : List FieldInfo}
    (hkeys : List.Forall₂ (fun f d => d.1 = .int f.key.toInt) fs kvs)
    (hinfos : List.Forall₂ (fun d fi => createFieldInfo d.2 = some fi) kvs fis) :
    createFieldInfoMap kvs = some (SortedMap.empty.insertAll (tableEntries (fs.zip fis))) := by
  have hfold : ∀ acc : FieldInfoMap,
      kvs.foldlM addField acc = some (acc.insertAll (tableEntries (fs.zip fis))) := by
    induction hkeys generalizing fis with
    | nil =>
      cases hinfos
      exact fun acc => rfl
    | @cons f d fs kvs hd _ ih =>
      cases hinfos with
      | @cons _ fi _ fis hfi hrest =>
        intro acc
        have hadd : addField acc d = some (acc.insert (Int16.ofInt f.key.toInt) fi) := by
          unfold addField
          rw [hd, fix2int_key, hfi]
          rfl
        rw [List.foldlM_cons, hadd]
        exact ih hrest _
  exact hfold .empty

theorem memberInfo_symName {f : TField} {fi : FieldInfo}
    (h : MemberInfo scopes env f fi) (hname : IsIdentifier f.name) :
    fi.symName = f.name := by
  obtain ⟨v, hv, hsym, -⟩ := h.named
  obtain ⟨hread, hintern⟩ := stringLiteral_identifier hname
  unfold nameValue at hv
  rw [if_neg hname.1] at hv
  unfold Environment.eval at hv
  rw [hread] at hv
  obtain rfl := Option.some.inj hv
  exact hsym.trans hintern

theorem eval_fieldDefns {s : TStruct} {lit : Literal} {v : Value}
    (hkeys : (s.members.map TFieldOf.key).Nodup)
    (h : generateFieldDefns scopes fuel s = .ok lit) (hv : env.eval lit = some v) :
    ∃ (defs : List (Value × Value)) (fis : List FieldInfo), v = .hash defs ∧
      List.Forall₂ (MemberInfo scopes env) s.members fis ∧
      List.Forall₂ (fun f d => d.1 = .int f.key.toInt) s.members defs ∧
      List.Forall₂ (fun d fi => createFieldInfo d.2 = some fi) defs fis ∧
      createFieldInfoMap defs =
        some (SortedMap.empty.insertAll (tableEntries (s.members.zip fis))) := by
  obtain ⟨es, hes, h⟩ := bind_ok h
  obtain rfl := Except.ok.inj h
  unfold Environment.eval at hv
  obtain ⟨kvs, hkvs, rfl⟩ := Option.map_eq_some_iff.mp hv
  have hparts : ∀ (fs : List TField) (es : List (Literal × Literal)) (kvs : List (Value × Value)),
      List.Forall₂ (fun f e => fieldEntry scopes fuel f = .ok e) fs es →
      env.evalEntries es = some kvs →
      List.Forall₂ (fun f d => d.1 = .int f.key.toInt) fs kvs ∧
      ∃ fis, List.Forall₂ (MemberInfo scopes env) fs fis ∧
        List.Forall₂ (fun d fi => createFieldInfo d.2 = some fi) kvs fis := by
    intro fs es kvs hes hkvs
    induction hes generalizing kvs with
    | nil =>
      unfold Environment.evalEntries at hkvs
      obtain rfl := Option.some.inj hkvs
      exact ⟨.nil, [], .nil, .nil⟩
    | @cons f e fs es he _ ih =>
      obtain ⟨l, hl, he⟩ := bind_ok he
      obtain rfl := Except.ok.inj he
      unfold Environment.evalEntries at hkvs
      obtain ⟨key, hkey, hkvs⟩ := Option.bind_eq_some_iff.mp hkvs
      obtain ⟨value, hvalue, hkvs⟩ := Option.bind_eq_some_iff.mp hkvs
      obtain ⟨rest, hrest, rfl⟩ := Option.map_eq_some_iff.mp hkvs
      unfold Environment.eval at hkey
      obtain rfl := Option.some.inj hkey
      obtain ⟨fi, hfi, hinfo⟩ := createFieldInfo_generated fuel hl hvalue
      obtain ⟨hints, fis, hfis, hmade⟩ := ih rest hrest
      exact ⟨.cons rfl hints, fi :: fis, .cons hinfo hfis, .cons hfi hmade⟩
  obtain ⟨hints, fis, hfis, hmade⟩ := hparts s.members es kvs (mapM_ok hes) hkvs
  have hdefs : env.hashNew kvs = kvs :=
    hashNew_of_pairwise env.isUnion (pairwise_of_keys env.isUnion hints hkeys)
  exact ⟨kvs, fis, by rw [hdefs], hfis, hints, hmade, createFieldInfoMap_eq hints hmade⟩

end FieldData

end Sparsam.SchemaEvaluation
