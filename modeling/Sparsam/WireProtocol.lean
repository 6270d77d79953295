import Mathlib.Algebra.Group.Int.Defs
import Mathlib.Algebra.Group.Nat.Defs
import Mathlib.Data.List.Basic

set_option autoImplicit false

/-!
# Wire types, calls of the protocol and wire values

The Thrift protocol is outside the repository, so `TProtocol` is a parameter:
the read primitives (`TReader`) and `skip` over a state of its own, and `encode`,
the buffer left by a sequence of write calls. `Consumes` replays a sequence of
write calls through the matching read calls.
-/
namespace Sparsam.WireProtocol

/-- `apache::thrift::protocol::TType`; `unknown` is any number without a name. -/
inductive TType where
  | STOP | VOID | BOOL | BYTE | DOUBLE | I16 | I32 | U64 | I64 | STRING | STRUCT | MAP | SET | LIST
  | UTF8 | UTF16
  | unknown (id : ℤ)
deriving DecidableEq, Repr

def TType.toInt : TType → ℤ
  | .STOP => 0
  | .VOID => 1
  | .BOOL => 2
  | .BYTE => 3
  | .DOUBLE => 4
  | .I16 => 6
  | .I32 => 8
  | .U64 => 9
  | .I64 => 10
  | .STRING => 11
  | .STRUCT => 12
  | .MAP => 13
  | .SET => 14
  | .LIST => 15
  | .UTF8 => 16
  | .UTF16 => 17
  | .unknown id => id

def TType.ofInt : ℤ → TType
  | 0 => .STOP
  | 1 => .VOID
  | 2 => .BOOL
  | 3 => .BYTE
  | 4 => .DOUBLE
  | 6 => .I16
  | 8 => .I32
  | 9 => .U64
  | 10 => .I64
  | 11 => .STRING
  | 12 => .STRUCT
  | 13 => .MAP
  | 14 => .SET
  | 15 => .LIST
  | 16 => .UTF8
  | 17 => .UTF16
  | n => .unknown n

/-- The types a value on the wire can have. -/
def TType.isWire : TType → Bool
  | .BOOL | .BYTE | .DOUBLE | .I16 | .I32 | .I64 | .STRING | .STRUCT | .MAP | .SET | .LIST => true
  | _ => false

def tTypeNames : List String :=
  ["T_STOP", "T_VOID", "T_BOOL", "T_BYTE or T_I08", "T_DOUBLE", "T_UNKNOWN", "T_I16", "T_UNKNOWN",
    "T_I32", "T_U64", "T_I64", "T_STRING or T_UTF7", "T_STRUCT", "T_MAP", "T_SET", "T_LIST",
    "T_UTF8", "T_UTF16"]

/-- The macro `TTypeName`, which takes any number. -/
def tTypeName (typeId : ℤ) : String :=
  if 0 ≤ typeId then tTypeNames.getD typeId.toNat "T_UNKNOWN" else "T_UNKNOWN"

/-- One call of a write primitive. `fieldBegin` never carries `STOP`: the stop
    byte is `writeFieldStop`. Sets are written with `writeListBegin`. -/
inductive Token where
  | structBegin
  | structEnd
  | fieldBegin (ftype : TType) (fid : Int16)
  | fieldEnd
  | fieldStop
  | mapBegin (keyType valueType : TType) (size : UInt32)
  | mapEnd
  | listBegin (elemType : TType) (size : UInt32)
  | listEnd
  | bool (b : Bool)
  | byte (n : Int8)
  | i16 (n : Int16)
  | i32 (n : Int32)
  | i64 (n : Int64)
  | double (bits : UInt64)
  | string (bytes : List UInt8)
  | binary (bytes : List UInt8)
deriving DecidableEq, Repr

abbrev TException := String

structure TReader (σ : Type) where
  readStructBegin : σ → Except TException (Unit × σ)
  readStructEnd : σ → Except TException (Unit × σ)
  readFieldBegin : σ → Except TException ((TType × Int16) × σ)
  readFieldEnd : σ → Except TException (Unit × σ)
  readMapBegin : σ → Except TException ((TType × TType × UInt32) × σ)
  readMapEnd : σ → Except TException (Unit × σ)
  readListBegin : σ → Except TException ((TType × UInt32) × σ)
  readListEnd : σ → Except TException (Unit × σ)
  readSetBegin : σ → Except TException ((TType × UInt32) × σ)
  readSetEnd : σ → Except TException (Unit × σ)
  readBool : σ → Except TException (Bool × σ)
  readByte : σ → Except TException (Int8 × σ)
  readI16 : σ → Except TException (Int16 × σ)
  readI32 : σ → Except TException (Int32 × σ)
  readI64 : σ → Except TException (Int64 × σ)
  readDouble : σ → Except TException (UInt64 × σ)
  readString : σ → Except TException (List UInt8 × σ)
  readBinary : σ → Except TException (List UInt8 × σ)

structure TProtocol (σ : Type) extends TReader σ where
  skip : TType → σ → Except TException (Unit × σ)
  /-- The state over a fresh `TMemoryBuffer` holding these bytes. -/
  openBuffer : List UInt8 → σ
  /-- The bytes in the `TMemoryBuffer` after these write calls. -/
  encode : List Token → List UInt8

/-- A value on the wire. A struct field is its id and its value; the type in
    its header is that of the value. -/
inductive WireValue where
  | bool (b : Bool)
  | byte (n : Int8)
  | i16 (n : Int16)
  | i32 (n : Int32)
  | i64 (n : Int64)
  | double (bits : UInt64)
  | string (isBinary : Bool) (bytes : List UInt8)
  | list (elemType : TType) (elems : List WireValue)
  | set (elemType : TType) (elems : List WireValue)
  | map (keyType valueType : TType) (entries : List (WireValue × WireValue))
  | struct (fields : List (Int16 × WireValue))

namespace WireValue

def type : WireValue → TType
  | .bool _ => .BOOL
  | .byte _ => .BYTE
  | .i16 _ => .I16
  | .i32 _ => .I32
  | .i64 _ => .I64
  | .double _ => .DOUBLE
  | .string _ _ => .STRING
  | .list _ _ => .LIST
  | .set _ _ => .SET
  | .map _ _ _ => .MAP
  | .struct _ => .STRUCT

mutual
def tokens : WireValue → List Token
  | .bool b => [.bool b]
  | .byte n => [.byte n]
  | .i16 n => [.i16 n]
  | .i32 n => [.i32 n]
  | .i64 n => [.i64 n]
  | .double bits => [.double bits]
  | .string true bytes => [.binary bytes]
  | .string false bytes => [.string bytes]
  | .list et ws => .listBegin et (UInt32.ofNat ws.length) :: (elemTokens ws ++ [.listEnd])
  | .set et ws => .listBegin et (UInt32.ofNat ws.length) :: (elemTokens ws ++ [.listEnd])
  | .map kt vt kvs => .mapBegin kt vt (UInt32.ofNat kvs.length) :: (entryTokens kvs ++ [.mapEnd])
  | .struct fs => .structBegin :: (fieldTokens fs ++ [.fieldStop, .structEnd])

def elemTokens : List WireValue → List Token
  | [] => []
  | w :: ws => tokens w ++ elemTokens ws

def entryTokens : List (WireValue × WireValue) → List Token
  | [] => []
  | (k, v) :: kvs => tokens k ++ (tokens v ++ entryTokens kvs)

def fieldTokens : List (Int16 × WireValue) → List Token
  | [] => []
  | (fid, w) :: fs => .fieldBegin (type w) fid :: (tokens w ++ (.fieldEnd :: fieldTokens fs))
end

theorem elemTokens_eq (ws : List WireValue) : elemTokens ws = ws.flatMap tokens := by
  induction ws with
  | nil => rfl
  | cons w ws ih => simp only [elemTokens, ih, List.flatMap_cons]

theorem entryTokens_eq (kvs : List (WireValue × WireValue)) :
    entryTokens kvs = kvs.flatMap fun e => tokens e.1 ++ tokens e.2 := by
  induction kvs with
  | nil => rfl
  | cons e kvs ih =>
    obtain ⟨k, v⟩ := e
    simp only [entryTokens, ih, List.flatMap_cons, List.append_assoc]

theorem fieldTokens_eq (fs : List (Int16 × WireValue)) :
    fieldTokens fs =
      fs.flatMap fun f => .fieldBegin f.2.type f.1 :: (tokens f.2 ++ [.fieldEnd]) := by
  induction fs with
  | nil => rfl
  | cons f fs ih =>
    obtain ⟨fid, w⟩ := f
    simp only [fieldTokens, ih, List.flatMap_cons, List.cons_append, List.append_assoc,
      List.nil_append]

theorem type_isWire (w : WireValue) : w.type.isWire = true := by
  cases w <;> rfl

theorem type_ne_stop (w : WireValue) : w.type ≠ .STOP := by
  cases w <;> simp [type]

/-- Bytes of a struct between `readStructBegin` and `readStructEnd`. -/
def bodyTokens (fs : List (Int16 × WireValue)) : List Token := fieldTokens fs ++ [.fieldStop]

theorem bodyTokens_cons (fid : Int16) (w : WireValue) (fs : List (Int16 × WireValue)) :
    bodyTokens ((fid, w) :: fs) =
      .fieldBegin w.type fid :: (tokens w ++ (.fieldEnd :: bodyTokens fs)) := by
  simp only [bodyTokens, fieldTokens, List.cons_append, List.append_assoc]

theorem tokens_struct (fs : List (Int16 × WireValue)) :
    tokens (.struct fs) = .structBegin :: (bodyTokens fs ++ [.structEnd]) := by
  simp only [tokens, bodyTokens, List.append_assoc, List.cons_append, List.nil_append]

theorem induct {P : WireValue → Prop} (bool : ∀ b, P (.bool b)) (byte : ∀ n, P (.byte n))
    (i16 : ∀ n, P (.i16 n)) (i32 : ∀ n, P (.i32 n)) (i64 : ∀ n, P (.i64 n))
    (double : ∀ b, P (.double b)) (string : ∀ t b, P (.string t b))
    (list : ∀ et ws, (∀ w ∈ ws, P w) → P (.list et ws))
    (set : ∀ et ws, (∀ w ∈ ws, P w) → P (.set et ws))
    (map : ∀ kt vt kvs, (∀ e ∈ kvs, P e.1 ∧ P e.2) → P (.map kt vt kvs))
    (struct : ∀ fs, (∀ f ∈ fs, P f.2) → P (.struct fs)) : ∀ w, P w := by
  intro w
  refine WireValue.rec (motive_1 := P) (motive_2 := fun ws => ∀ w ∈ ws, P w)
    (motive_3 := fun kvs => ∀ e ∈ kvs, P e.1 ∧ P e.2) (motive_4 := fun fs => ∀ f ∈ fs, P f.2)
    (motive_5 := fun e => P e.1 ∧ P e.2) (motive_6 := fun f => P f.2)
    bool byte i16 i32 i64 double string list set map struct ?_ ?_ ?_ ?_ ?_ ?_ ?_ ?_ w
  · simp
  · intro w ws hw hws x hx
    rcases List.mem_cons.mp hx with rfl | hx
    · exact hw
    · exact hws x hx
  · simp
  · intro e kvs he hkvs x hx
    rcases List.mem_cons.mp hx with rfl | hx
    · exact he
    · exact hkvs x hx
  · simp
  · intro f fs hf hfs x hx
    rcases List.mem_cons.mp hx with rfl | hx
    · exact hf
    · exact hfs x hx
  · exact fun k v hk hv => ⟨hk, hv⟩
  · exact fun fid w hw => hw

/-- Every element, key and value has the type its container announces, and the
    sizes fit the 32-bit count. The announced types of an empty map mean nothing. -/
inductive WellFormed : WireValue → Prop
  | bool (b : Bool) : WellFormed (.bool b)
  | byte (n : Int8) : WellFormed (.byte n)
  | i16 (n : Int16) : WellFormed (.i16 n)
  | i32 (n : Int32) : WellFormed (.i32 n)
  | i64 (n : Int64) : WellFormed (.i64 n)
  | double (bits : UInt64) : WellFormed (.double bits)
  | string (isBinary : Bool) (bytes : List UInt8) (size : bytes.length < 2 ^ 31) :
      WellFormed (.string isBinary bytes)
  | list (et : TType) (ws : List WireValue) (size : ws.length < 2 ^ 31) (wire : et.isWire = true)
      (types : ∀ w ∈ ws, w.type = et) (elems : ∀ w ∈ ws, WellFormed w) : WellFormed (.list et ws)
  | set (et : TType) (ws : List WireValue) (size : ws.length < 2 ^ 31) (wire : et.isWire = true)
      (types : ∀ w ∈ ws, w.type = et) (elems : ∀ w ∈ ws, WellFormed w) : WellFormed (.set et ws)
  | map (kt vt : TType) (kvs : List (WireValue × WireValue)) (size : kvs.length < 2 ^ 31)
      (keyWire : kt.isWire = true) (valueWire : vt.isWire = true)
      (types : ∀ e ∈ kvs, e.1.type = kt ∧ e.2.type = vt) (keys : ∀ e ∈ kvs, WellFormed e.1)
      (values : ∀ e ∈ kvs, WellFormed e.2) : WellFormed (.map kt vt kvs)
  | struct (fs : List (Int16 × WireValue)) (fields : ∀ f ∈ fs, WellFormed f.2) :
      WellFormed (.struct fs)

end WireValue

namespace TReader
variable {σ : Type} (P : TReader σ)

/-- The read call that matches a write call gives back its arguments. The
    compact protocol drops the types of an empty map. -/
def Reads : Token → σ → σ → Prop
  | .structBegin, s, t => P.readStructBegin s = .ok ((), t)
  | .structEnd, s, t => P.readStructEnd s = .ok ((), t)
  | .fieldBegin ft fid, s, t => P.readFieldBegin s = .ok ((ft, fid), t)
  | .fieldEnd, s, t => P.readFieldEnd s = .ok ((), t)
  | .fieldStop, s, t => ∃ fid, P.readFieldBegin s = .ok ((.STOP, fid), t)
  | .mapBegin kt vt n, s, t =>
    ∃ kt' vt', P.readMapBegin s = .ok ((kt', vt', n), t) ∧ (n ≠ 0 → kt' = kt ∧ vt' = vt)
  | .mapEnd, s, t => P.readMapEnd s = .ok ((), t)
  | .listBegin et n, s, t => P.readListBegin s = .ok ((et, n), t)
  | .listEnd, s, t => P.readListEnd s = .ok ((), t)
  | .bool b, s, t => P.readBool s = .ok (b, t)
  | .byte n, s, t => P.readByte s = .ok (n, t)
  | .i16 n, s, t => P.readI16 s = .ok (n, t)
  | .i32 n, s, t => P.readI32 s = .ok (n, t)
  | .i64 n, s, t => P.readI64 s = .ok (n, t)
  | .double bits, s, t => P.readDouble s = .ok (bits, t)
  | .string bytes, s, t => P.readString s = .ok (bytes, t)
  | .binary bytes, s, t => P.readBinary s = .ok (bytes, t)

/-- From `s` the read calls give back exactly these tokens and stop at `t`. -/
def Consumes : σ → List Token → σ → Prop
  | s, [], t => s = t
  | s, tok :: toks, t => ∃ u, P.Reads tok s u ∧ Consumes u toks t

@[simp] theorem consumes_nil (s t : σ) : P.Consumes s [] t ↔ s = t := Iff.rfl

@[simp] theorem consumes_cons (s t : σ) (tok : Token) (toks : List Token) :
    P.Consumes s (tok :: toks) t ↔ ∃ u, P.Reads tok s u ∧ P.Consumes u toks t := Iff.rfl

theorem consumes_append (s t : σ) (xs ys : List Token) :
    P.Consumes s (xs ++ ys) t ↔ ∃ u, P.Consumes s xs u ∧ P.Consumes u ys t := by
  induction xs generalizing s with
  | nil => simp
  | cons tok toks ih =>
    simp only [List.cons_append, consumes_cons, ih]
    constructor
    · rintro ⟨u, hu, v, hv, ht⟩
      exact ⟨v, ⟨u, hu, hv⟩, ht⟩
    · rintro ⟨v, ⟨u, hu, hv⟩, ht⟩
      exact ⟨u, hu, v, hv, ht⟩

structure SharedList : Prop where
  setBegin : ∀ s, P.readSetBegin s = P.readListBegin s
  setEnd : ∀ s, P.readSetEnd s = P.readListEnd s

end TReader

namespace TProtocol
variable {σ : Type} (P : TProtocol σ)

/-- The read primitives undo the write primitives token by token. -/
structure Inverse : Prop extends P.toTReader.SharedList where
  decode_encode : ∀ w : WireValue, w.WellFormed → w.type = .STRUCT →
    ∃ t, P.Consumes (P.openBuffer (P.encode w.tokens)) w.tokens t

/-- `skip(t)` takes exactly one value of type `t` off the wire. -/
def SkipExact : Prop :=
  ∀ (w : WireValue) (s t : σ), w.WellFormed → P.Consumes s w.tokens t →
    P.skip w.type s = .ok ((), t)

/-- Framing of the primitives: `skip` is exact, the end calls of containers have
    no wire encoding, `string` and `binary` are read alike. -/
structure Framed : Prop extends P.toTReader.SharedList where
  skip : P.SkipExact
  listEnd : ∀ s, P.readListEnd s = .ok ((), s)
  mapEnd : ∀ s, P.readMapEnd s = .ok ((), s)
  binary : ∀ s, P.readBinary s = P.readString s

end TProtocol

end Sparsam.WireProtocol
