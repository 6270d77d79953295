import Sparsam.ObjectMethods

set_option autoImplicit false

/-!
# `writeAny`, `writeStruct` and `serializer_writeStruct`

A run of the writer appends its calls of the protocol's write primitives; it
keeps what it wrote when it raises. The primitives themselves do not fail on
sizes below `2 ^ 31`.
-/
namespace Sparsam.SerializerWrite
open WireProtocol RubyRuntime FieldInfoCache

abbrev Writer := EStateM Err (List Token)

def emit (tok : Token) : Writer Unit := fun out => .ok () (out ++ [tok])

def raiseExcWithStructAndFieldNames {σ α : Type} (cls : ExcClass)
    (msgStart structName fieldName : String) : EStateM Err σ α :=
  throw (.raised cls (msgStart ++ " (in " ++ structName ++ "#" ++ fieldName ++ ")")
    (some structName) (some fieldName))

def rangeError {α : Type} (msg : String) : Writer α := throw (.raised .RangeError msg none none)

/-- `FIXNUM_P` on a 64-bit Ruby. -/
def fixnum (n : ℤ) : Bool := decide (-2 ^ 62 ≤ n ∧ n < 2 ^ 62)

def shortConvert (n : ℤ) : Writer Int16 :=
  if -2 ^ 15 ≤ n ∧ n < 2 ^ 15 then pure (Int16.ofInt n)
  else rangeError ("integer " ++ toString n ++ " out of range of short")

def intConvert (n : ℤ) : Writer Int32 :=
  if -2 ^ 31 ≤ n ∧ n < 2 ^ 31 then pure (Int32.ofInt n)
  else rangeError ("integer " ++ toString n ++ " out of range of int")

def byteConvert (n : ℤ) : Writer Int8 := do
  let s ← shortConvert n
  if s.toInt ≤ 127 ∧ s.toInt ≥ -128 then pure (Int8.ofInt s.toInt)
  else rangeError ("integer " ++ toString s.toInt ++ " out of range for char")

def big2ll (n : ℤ) : Writer Int64 :=
  if -2 ^ 63 ≤ n ∧ n < 2 ^ 63 then pure (Int64.ofInt n)
  else rangeError "bignum too big to convert into long long"

section Convert
variable {α : Type} (sch : Schema) (outer : RClass) (fieldSym : ID)

def raiseTypeMismatch (expected : String) (actual : Value) : Writer α :=
  raiseExcWithStructAndFieldNames .TypeMismatch
    ("Mismatched type (expected to be compatible with: " ++ expected ++ ", found: " ++
      sch.rbClassName (classOf actual) ++ ")")
    (sch.rbClassName outer) fieldSym

-- `SPARSAM_CHECK_TYPE` names the expected type by Ruby's own type numbers.
def rubyTString : ℤ := 5
def rubyTArray : ℤ := 7
def rubyTHash : ℤ := 8

def convertFixnum (convert : ℤ → Writer α) (intended : TType) : Value → Writer α
  | .int n => if fixnum n then convert n else rangeError "bignum too big to convert"
  | actual => raiseTypeMismatch sch outer fieldSym (tTypeName intended.toInt) actual

def convertI64 : Value → Writer Int64
  | .int n => if fixnum n then pure (Int64.ofInt n) else big2ll n
  | actual => raiseTypeMismatch sch outer fieldSym (tTypeName TType.I64.toInt) actual

def convertFloat : Value → Writer UInt64
  | .float bits => pure bits
  | actual => raiseTypeMismatch sch outer fieldSym (tTypeName TType.DOUBLE.toInt) actual

def convertBool : Value → Writer Bool
  | .bool b => pure b
  | actual => raiseTypeMismatch sch outer fieldSym (tTypeName TType.BOOL.toInt) actual

end Convert

def checkRequiredFields (sch : Schema) (klass : VALUE) (ivars : List (ID × Value)) :
    List (Int16 × FieldInfo) → Writer Unit
  | [] => pure ()
  | e :: rest =>
    if e.2.isOptional = false ∧ (ivarGet ivars e.2.ivarName).isNil = true then
      raiseExcWithStructAndFieldNames .MissingMandatory "Required field missing"
        (sch.className klass) e.2.symName
    else checkRequiredFields sch klass ivars rest

/-- The body of `writeStruct`; `write` handles one entry of the field table. -/
def writeStructWith (sch : Schema) (klass : VALUE) (ivars : List (ID × Value))
    (write : Int16 × FieldInfo → Writer Unit) : Writer Unit :=
  match sch.fieldInfoMap klass with
  | none => throw .crash
  | some fields => do
    checkRequiredFields sch klass ivars fields.entries
    fields.entries.forM write

mutual
def writeAny (sch : Schema) (outer : RClass) (fieldSym : ID) (ttype : TType) (fi : FieldInfo) :
    Value → Writer Unit := fun actual =>
  match ttype with
  | .I16 => do
    emit (.i16 (← convertFixnum sch outer fieldSym shortConvert .I16 actual))
  | .I32 => do
    emit (.i32 (← convertFixnum sch outer fieldSym intConvert .I32 actual))
  | .I64 => do
    emit (.i64 (← convertI64 sch outer fieldSym actual))
  | .BOOL => do
    emit (.bool (← convertBool sch outer fieldSym actual))
  | .DOUBLE => do
    emit (.double (← convertFloat sch outer fieldSym actual))
  | .BYTE => do
    emit (.byte (← convertFixnum sch outer fieldSym byteConvert .BYTE actual))
  | .STRING =>
    match actual with
    | .str _ bytes => emit (if fi.isBinaryString then .binary bytes else .string bytes)
    | _ => raiseTypeMismatch sch outer fieldSym (tTypeName rubyTString) actual
  | .LIST =>
    match actual with
    | .ary xs =>
      match fi.elementType with
      | none => throw .crash
      | some e => do
        emit (.listBegin e.ftype (UInt32.ofNat xs.length))
        writeElems sch outer fieldSym e xs
        emit .listEnd
    | _ => raiseTypeMismatch sch outer fieldSym (tTypeName rubyTArray) actual
  | .SET =>
    if (classOf actual).real ≠ .builtin "Set" then
      raiseTypeMismatch sch outer fieldSym (tTypeName TType.SET.toInt) actual
    else
      match actual, fi.elementType with
      | .set xs, some e => do
        emit (.listBegin e.ftype (UInt32.ofNat xs.length))
        writeElems sch outer fieldSym e xs
        emit .listEnd
      | _, _ => throw .crash
  | .MAP =>
    match actual with
    | .hash kvs =>
      match fi.keyType, fi.elementType with
      | some k, some e => do
        emit (.mapBegin k.ftype e.ftype (UInt32.ofNat kvs.length))
        writeEntries sch outer fieldSym k e kvs
        emit .mapEnd
      | _, _ => throw .crash
    | _ => raiseTypeMismatch sch outer fieldSym (tTypeName rubyTHash) actual
  | .STRUCT =>
    if (classOf actual).real ≠ .user fi.klass then
      raiseTypeMismatch sch outer fieldSym (sch.className fi.klass) actual
    else
      match actual with
      | .obj _ _ _ ivars => do
        emit .structBegin
        writeStructWith sch fi.klass ivars fun e => writeIvar sch (classOf actual) e ivars
        emit .fieldStop
        emit .structEnd
      | _ => throw .crash
  | _ => pure ()

def writeElems (sch : Schema) (outer : RClass) (fieldSym : ID) (e : FieldInfo) :
    List Value → Writer Unit
  | [] => pure ()
  | x :: xs => do
    writeAny sch outer fieldSym e.ftype e x
    writeElems sch outer fieldSym e xs

def writeEntries (sch : Schema) (outer : RClass) (fieldSym : ID) (k e : FieldInfo) :
    List (Value × Value) → Writer Unit
  | [] => pure ()
  | (x, y) :: kvs => do
    writeAny sch outer fieldSym k.ftype k x
    writeAny sch outer fieldSym e.ftype e y
    writeEntries sch outer fieldSym k e kvs

/-- The loop body of `writeStruct`: it reads the instance variable of one field
    and writes it unless it is nil. -/
def writeIvar (sch : Schema) (data : RClass) (e : Int16 × FieldInfo) :
    List (ID × Value) → Writer Unit
  | [] => pure ()
  | (name, actual) :: rest =>
    if name = e.2.ivarName then
      if actual.isNil then pure ()
      else do
        emit (.fieldBegin e.2.ftype e.1)
        writeAny sch data e.2.symName e.2.ftype e.2 actual
        emit .fieldEnd
    else writeIvar sch data e rest
end

def writeStruct (sch : Schema) (klass : VALUE) (data : RClass) (ivars : List (ID × Value)) :
    Writer Unit :=
  writeStructWith sch klass ivars fun e => writeIvar sch data e ivars

def serializerWriteStruct (sch : Schema) (klass : VALUE) (data : Value) : Writer Unit :=
  if (classOf data).real ≠ .user klass then
    raiseExcWithStructAndFieldNames .TypeMismatch
      ("Mismatched type passed to serialize (expected: " ++ sch.className klass ++ " got: " ++
        sch.rbClassName (classOf data) ++ ")")
      (sch.rbClassName (classOf data)) "(root)"
  else
    match data with
    | .obj _ _ _ ivars => do
      emit .structBegin
      writeStruct sch klass (classOf data) ivars
      emit .fieldStop
      emit .structEnd
    | _ => throw .crash

/-- `BaseType#serialize`: the class given to the serializer is `x`'s own. -/
def serialize {σ : Type} (P : TProtocol σ) (sch : Schema) (x : Value) : Except Err (List UInt8) :=
  match (classOf x).real with
  | .user klass =>
    match serializerWriteStruct sch klass x [] with
    | .ok () out => .ok (P.encode out)
    | .error e _ => .error e
  | _ => .error .crash

/-- What `x.serialize` returns. -/
inductive Serialized where
  | bytes (written : List UInt8)
  /-- of a field named `serialize` -/
  | value (v : Value)

/-- `x.serialize`: the reader of a field of this name stands before the method. -/
def callSerialize {σ : Type} (P : TProtocol σ) (sch : Schema) (x : Value) :
    Except Err Serialized :=
  match x with
  | .obj _ klass _ ivars =>
    match (sch.findClass klass).filter fun c => decide ("serialize" ∈ c.fieldNames) with
    | some c => (ObjectMethods.callReader c "serialize" ivars).map .value
    | none => (serialize P sch x).map .bytes
  | _ => (serialize P sch x).map .bytes

section Lookup
variable {σ : Type} (P : TProtocol σ) {sch : Schema} {oid : ℕ} {klass : VALUE} {eigen : Bool}
  {ivars : List (ID × Value)}

theorem callSerialize_method (h : ∀ c ∈ sch.findClass klass, "serialize" ∉ c.fieldNames) :
    callSerialize P sch (.obj oid klass eigen ivars) =
      (serialize P sch (.obj oid klass eigen ivars)).map .bytes := by
  have hnone : ((sch.findClass klass).filter fun c => decide ("serialize" ∈ c.fieldNames)) =
      none := by
    rw [Option.filter_eq_none_iff]
    exact fun c hc => by simpa using h c hc
  unfold callSerialize
  dsimp only
  rw [hnone]

theorem callSerialize_field {c : RubyClass} (hc : sch.findClass klass = some c)
    (h : "serialize" ∈ c.fieldNames) : callSerialize P sch (.obj oid klass eigen ivars) =
      (ObjectMethods.callReader c "serialize" ivars).map .value := by
  have hsome : ((sch.findClass klass).filter fun c => decide ("serialize" ∈ c.fieldNames)) =
      some c := by
    rw [hc, Option.filter_some, if_pos (by simpa using h)]
  unfold callSerialize
  dsimp only
  rw [hsome]

theorem callSerialize_ne_bytes {c : RubyClass} (hc : sch.findClass klass = some c)
    (h : "serialize" ∈ c.fieldNames) (written : List UInt8) :
    callSerialize P sch (.obj oid klass eigen ivars) ≠ .ok (.bytes written) := by
  rw [callSerialize_field P hc h]
  cases ObjectMethods.callReader c "serialize" ivars <;> simp [Except.map]

end Lookup

end Sparsam.SerializerWrite
