import Mathlib.Tactic.Ring
import Sparsam.GenericSkip

set_option autoImplicit false

/-!
# The binary protocol

The format of `TBinaryProtocol`: big-endian integers, a type byte and a 16-bit
id before each field, a type byte and a 32-bit count before each container. It
satisfies what the development assumes of a protocol.
-/
namespace Sparsam.BinaryProtocol
open WireProtocol GenericSkip

abbrev ByteRead (α : Type) := Read (List UInt8) α

def bigEndian : ℕ → ℕ → List UInt8
  | 0, _ => []
  | k + 1, n => UInt8.ofNat (n / 256 ^ k) :: bigEndian k n

def ofBigEndian (bytes : List UInt8) : ℕ := bytes.foldl (fun acc b => acc * 256 + b.toNat) 0

theorem bigEndian_length (k n : ℕ) : (bigEndian k n).length = k := by
  induction k with
  | zero => rfl
  | succ k ih => simp [bigEndian, ih]

theorem foldl_bigEndian (k n acc : ℕ) :
    (bigEndian k n).foldl (fun acc b => acc * 256 + b.toNat) acc = acc * 256 ^ k + n % 256 ^ k := by
  induction k generalizing acc with
  | zero => simp [bigEndian, Nat.mod_one]
  | succ k ih =>
    have hdigit : (UInt8.ofNat (n / 256 ^ k)).toNat = n / 256 ^ k % 256 := by simp
    have hmod : n % 256 ^ (k + 1) = n % 256 ^ k + 256 ^ k * (n / 256 ^ k % 256) := by
      rw [pow_succ, Nat.mod_mul]
    simp only [bigEndian, List.foldl_cons, ih, hdigit, hmod]
    ring

theorem ofBigEndian_bigEndian (k n : ℕ) : ofBigEndian (bigEndian k n) = n % 256 ^ k := by
  simp [ofBigEndian, foldl_bigEndian]

def take (k : ℕ) : ByteRead (List UInt8) := fun s =>
  if k ≤ s.length then .ok (s.take k, s.drop k) else .error "No more data to read."

theorem take_append (xs r : List UInt8) : take xs.length (xs ++ r) = .ok (xs, r) := by
  simp [take]

def readNat (k : ℕ) : ByteRead ℕ := mapRead ofBigEndian (take k)

theorem readNat_append (k n : ℕ) (r : List UInt8) (h : n < 256 ^ k) :
    readNat k (bigEndian k n ++ r) = .ok (n, r) := by
  have ht : take k (bigEndian k n ++ r) = .ok (bigEndian k n, r) := by
    simpa only [bigEndian_length] using take_append (bigEndian k n) r
  rw [readNat, mapRead_ok ht, ofBigEndian_bigEndian, Nat.mod_eq_of_lt h]

def readI8 : ByteRead Int8 := mapRead Int8.ofNat (readNat 1)
def readI16 : ByteRead Int16 := mapRead Int16.ofNat (readNat 2)
def readI32 : ByteRead Int32 := mapRead Int32.ofNat (readNat 4)
def readI64 : ByteRead Int64 := mapRead Int64.ofNat (readNat 8)
def readU64 : ByteRead UInt64 := mapRead UInt64.ofNat (readNat 8)
def readType : ByteRead TType := mapRead (fun n : Int8 => TType.ofInt n.toInt) readI8

/-- A 32-bit count; a negative one is refused. -/
def readSize : ByteRead UInt32 := andThen readI32 fun n =>
  if n.toInt < 0 then fun _ => .error "Negative size" else done (UInt32.ofNat n.toInt.toNat)

def readFieldBegin : ByteRead (TType × Int16) := andThen readType fun ft =>
  if ft = .STOP then done (.STOP, 0) else mapRead (fun fid => (ft, fid)) readI16

def readListBegin : ByteRead (TType × UInt32) := andThen readType fun et =>
  mapRead (fun size => (et, size)) readSize

def readMapBegin : ByteRead (TType × TType × UInt32) := andThen readType fun kt =>
  andThen readType fun vt => mapRead (fun size => (kt, vt, size)) readSize

def readString : ByteRead (List UInt8) := andThen readSize fun size => take size.toNat

def readBool : ByteRead Bool := mapRead (fun n : Int8 => decide (n ≠ 0)) readI8

def tokenBytes : Token → List UInt8
  | .structBegin | .structEnd | .fieldEnd | .mapEnd | .listEnd => []
  | .fieldBegin ft fid => bigEndian 1 ft.toInt.toNat ++ bigEndian 2 fid.toBitVec.toNat
  | .fieldStop => [0]
  | .mapBegin kt vt n =>
    bigEndian 1 kt.toInt.toNat ++ (bigEndian 1 vt.toInt.toNat ++ bigEndian 4 n.toNat)
  | .listBegin et n => bigEndian 1 et.toInt.toNat ++ bigEndian 4 n.toNat
  | .bool b => [if b then 1 else 0]
  | .byte n => bigEndian 1 n.toBitVec.toNat
  | .i16 n => bigEndian 2 n.toBitVec.toNat
  | .i32 n => bigEndian 4 n.toBitVec.toNat
  | .i64 n => bigEndian 8 n.toBitVec.toNat
  | .double bits => bigEndian 8 bits.toNat
  | .string bytes | .binary bytes => bigEndian 4 bytes.length ++ bytes

def binaryReads : TReader (List UInt8) where
  readStructBegin := done ()
  readStructEnd := done ()
  readFieldBegin := readFieldBegin
  readFieldEnd := done ()
  readMapBegin := readMapBegin
  readMapEnd := done ()
  readListBegin := readListBegin
  readListEnd := done ()
  readSetBegin := readListBegin
  readSetEnd := done ()
  readBool := readBool
  readByte := readI8
  readI16 := readI16
  readI32 := readI32
  readI64 := readI64
  readDouble := readU64
  readString := readString
  readBinary := readString

/-- At most three tokens stand for one byte, which bounds the depth of `skip`. -/
def binaryProtocol : TProtocol (List UInt8) where
  toTReader := binaryReads
  skip := fun ttype s => skipWithin binaryReads (3 * s.length) ttype s
  openBuffer := id
  encode := fun toks => toks.flatMap tokenBytes

/-- What the writer promises of a call: types with a byte of their own, counts
    that read back as they were written. -/
def TokenValid : Token → Prop
  | .fieldBegin ft _ => ft.isWire = true
  | .mapBegin kt vt n => kt.isWire = true ∧ vt.isWire = true ∧ n.toNat < 2 ^ 31
  | .listBegin et n => et.isWire = true ∧ n.toNat < 2 ^ 31
  | .string bytes | .binary bytes => bytes.length < 2 ^ 31
  | _ => True

theorem readType_append (ft : TType) (r : List UInt8) (h : ft.isWire = true) :
    readType (bigEndian 1 ft.toInt.toNat ++ r) = .ok (ft, r) := by
  have hn : ft.toInt.toNat < 256 ^ 1 := by cases ft <;> simp_all [TType.isWire, TType.toInt]
  have hi : readI8 (bigEndian 1 ft.toInt.toNat ++ r) =
      .ok (Int8.ofNat ft.toInt.toNat, r) := mapRead_ok (readNat_append 1 _ r hn)
  have ht : TType.ofInt (Int8.ofNat ft.toInt.toNat).toInt = ft := by
    cases ft <;> first | rfl | simp_all [TType.isWire]
  exact (mapRead_ok hi).trans (by rw [ht])

theorem readI8_append (n : Int8) (r : List UInt8) :
    readI8 (bigEndian 1 n.toBitVec.toNat ++ r) = .ok (n, r) := by
  have h := readNat_append 1 n.toBitVec.toNat r (by have := n.toBitVec.isLt; omega)
  have hn : Int8.ofNat n.toBitVec.toNat = n := by simp
  exact (mapRead_ok h).trans (by rw [hn])

theorem readI16_append (n : Int16) (r : List UInt8) :
    readI16 (bigEndian 2 n.toBitVec.toNat ++ r) = .ok (n, r) := by
  have h := readNat_append 2 n.toBitVec.toNat r (by have := n.toBitVec.isLt; omega)
  have hn : Int16.ofNat n.toBitVec.toNat = n := by simp
  exact (mapRead_ok h).trans (by rw [hn])

theorem readI32_append (n : Int32) (r : List UInt8) :
    readI32 (bigEndian 4 n.toBitVec.toNat ++ r) = .ok (n, r) := by
  have h := readNat_append 4 n.toBitVec.toNat r (by have := n.toBitVec.isLt; omega)
  have hn : Int32.ofNat n.toBitVec.toNat = n := by simp
  exact (mapRead_ok h).trans (by rw [hn])

theorem readI64_append (n : Int64) (r : List UInt8) :
    readI64 (bigEndian 8 n.toBitVec.toNat ++ r) = .ok (n, r) := by
  have h := readNat_append 8 n.toBitVec.toNat r (by have := n.toBitVec.isLt; omega)
  have hn : Int64.ofNat n.toBitVec.toNat = n := by simp
  exact (mapRead_ok h).trans (by rw [hn])

theorem readU64_append (n : UInt64) (r : List UInt8) :
    readU64 (bigEndian 8 n.toNat ++ r) = .ok (n, r) := by
  have h := readNat_append 8 n.toNat r (by have := n.toNat_lt; omega)
  have hn : UInt64.ofNat n.toNat = n := by simp
  exact (mapRead_ok h).trans (by rw [hn])

theorem readSize_append (n : ℕ) (r : List UInt8) (h : n < 2 ^ 31) :
    readSize (bigEndian 4 n ++ r) = .ok (UInt32.ofNat n, r) := by
  have hi : readI32 (bigEndian 4 n ++ r) = .ok (Int32.ofNat n, r) :=
    mapRead_ok (readNat_append 4 n r (by omega))
  have hv : (Int32.ofNat n).toInt = n := by
    rw [Int32.toInt_ofNat']
    exact Int.bmod_eq_of_le (by simp only [Int32.size]; omega) (by simp only [Int32.size]; omega)
  refine (andThen_ok hi).trans ?_
  rw [hv, if_neg (by omega)]
  rfl

theorem reads_tokenBytes (tok : Token) (r : List UInt8) (h : TokenValid tok) :
    binaryProtocol.Reads tok (tokenBytes tok ++ r) r := by
  cases tok with
  | structBegin | structEnd | fieldEnd | mapEnd | listEnd => rfl
  | fieldBegin ft fid =>
    have hstop : ft ≠ .STOP := by rintro rfl; simp [TokenValid, TType.isWire] at h
    change readFieldBegin ((bigEndian 1 ft.toInt.toNat ++ bigEndian 2 fid.toBitVec.toNat) ++ r) = _
    rw [List.append_assoc]
    refine (andThen_ok (readType_append ft _ h)).trans ?_
    rw [if_neg hstop]
    exact mapRead_ok (readI16_append fid r)
  | fieldStop => exact ⟨0, rfl⟩
  | mapBegin kt vt n =>
    obtain ⟨hk, hv, hn⟩ := h
    refine ⟨kt, vt, ?_, fun _ => ⟨rfl, rfl⟩⟩
    change readMapBegin ((bigEndian 1 kt.toInt.toNat ++
      (bigEndian 1 vt.toInt.toNat ++ bigEndian 4 n.toNat)) ++ r) = _
    rw [List.append_assoc, List.append_assoc]
    refine (andThen_ok (readType_append kt _ hk)).trans ?_
    refine (andThen_ok (readType_append vt _ hv)).trans ?_
    simpa using mapRead_ok (f := fun size => (kt, vt, size)) (readSize_append n.toNat r hn)
  | listBegin et n =>
    obtain ⟨he, hn⟩ := h
    change readListBegin ((bigEndian 1 et.toInt.toNat ++ bigEndian 4 n.toNat) ++ r) = _
    rw [List.append_assoc]
    refine (andThen_ok (readType_append et _ he)).trans ?_
    simpa using mapRead_ok (f := fun size => (et, size)) (readSize_append n.toNat r hn)
  | bool b => cases b <;> rfl
  | byte n => exact readI8_append n r
  | i16 n => exact readI16_append n r
  | i32 n => exact readI32_append n r
  | i64 n => exact readI64_append n r
  | double bits => exact readU64_append bits r
  | string bytes | binary bytes =>
    have hlen : (UInt32.ofNat bytes.length).toNat = bytes.length := by
      have hb : bytes.length < 2 ^ 31 := h
      simp only [UInt32.toNat_ofNat']
      omega
    change readString ((bigEndian 4 bytes.length ++ bytes) ++ r) = _
    rw [List.append_assoc]
    refine (andThen_ok (readSize_append bytes.length _ h)).trans ?_
    rw [hlen]
    exact take_append bytes r

theorem consumes_flatMap (toks : List Token) (r : List UInt8) (h : ∀ tok ∈ toks, TokenValid tok) :
    binaryProtocol.Consumes (toks.flatMap tokenBytes ++ r) toks r := by
  induction toks with
  | nil => rfl
  | cons tok toks ih =>
    refine ⟨toks.flatMap tokenBytes ++ r, ?_, ih fun t ht => h t (List.mem_cons_of_mem _ ht)⟩
    rw [List.flatMap_cons, List.append_assoc]
    exact reads_tokenBytes tok _ (h tok (by simp))

theorem tokens_valid (w : WireValue) (hw : w.WellFormed) : ∀ tok ∈ w.tokens, TokenValid tok := by
  induction w using WireValue.induct with
  | bool | byte | i16 | i32 | i64 | double => simp [WireValue.tokens, TokenValid]
  | string t b =>
    cases hw with
    | string _ _ size => cases t <;> simpa [WireValue.tokens, TokenValid] using size
  | list et ws ih =>
    cases hw with
    | list _ _ size wire types elems =>
      intro tok htok
      simp only [WireValue.tokens, WireValue.elemTokens_eq, List.mem_cons, List.mem_append,
        List.mem_flatMap, List.mem_nil_iff, or_false] at htok
      rcases htok with rfl | ⟨w, hw, htok⟩ | rfl
      · exact ⟨wire, by rw [ofNat_toNat_lt size]; exact size⟩
      · exact ih w hw (elems w hw) tok htok
      · trivial
  | set et ws ih =>
    cases hw with
    | set _ _ size wire types elems =>
      intro tok htok
      simp only [WireValue.tokens, WireValue.elemTokens_eq, List.mem_cons, List.mem_append,
        List.mem_flatMap, List.mem_nil_iff, or_false] at htok
      rcases htok with rfl | ⟨w, hw, htok⟩ | rfl
      · exact ⟨wire, by rw [ofNat_toNat_lt size]; exact size⟩
      · exact ih w hw (elems w hw) tok htok
      · trivial
  | map kt vt kvs ih =>
    cases hw with
    | map _ _ _ size keyWire valueWire types keys values =>
      intro tok htok
      simp only [WireValue.tokens, WireValue.entryTokens_eq, List.mem_cons, List.mem_append,
        List.mem_flatMap, List.mem_nil_iff, or_false] at htok
      rcases htok with rfl | ⟨e, he, htok | htok⟩ | rfl
      · exact ⟨keyWire, valueWire, by rw [ofNat_toNat_lt size]; exact size⟩
      · exact (ih e he).1 (keys e he) tok htok
      · exact (ih e he).2 (values e he) tok htok
      · trivial
  | struct fs ih =>
    cases hw with
    | struct _ fields =>
      intro tok htok
      simp only [WireValue.tokens, WireValue.fieldTokens_eq, List.mem_cons, List.mem_append,
        List.mem_flatMap, List.mem_nil_iff, or_false] at htok
      rcases htok with rfl | ⟨f, hf, rfl | htok | rfl⟩ | rfl | rfl
      · trivial
      · exact WireValue.type_isWire f.2
      · exact ih f hf (fields f hf) tok htok
      · trivial
      · trivial
      · trivial

/-- A read that takes at least `k` bytes when it succeeds. -/
def Shrinks {α : Type} (k : ℕ) (x : ByteRead α) : Prop :=
  ∀ s a t, x s = .ok (a, t) → t.length + k ≤ s.length

theorem shrinks_done {α : Type} (a : α) : Shrinks 0 (done a) := by
  intro s b t h
  cases h
  omega

theorem shrinks_take (k : ℕ) : Shrinks k (take k) := by
  intro s xs t h
  unfold take at h
  split_ifs at h with hk
  cases h
  simp only [List.length_drop]
  omega

theorem Shrinks.mapRead {α β : Type} {k : ℕ} {x : ByteRead α} {f : α → β} (hx : Shrinks k x) :
    Shrinks k (mapRead f x) := by
  intro s b t h
  unfold GenericSkip.mapRead at h
  cases hs : x s with
  | error e => simp [hs] at h
  | ok p =>
    simp only [hs, Except.ok.injEq, Prod.mk.injEq] at h
    exact h.2 ▸ hx s p.1 p.2 hs

theorem Shrinks.andThen {α β : Type} {k j : ℕ} {x : ByteRead α} {f : α → ByteRead β}
    (hx : Shrinks k x)
    (hf : ∀ a, Shrinks j (f a)) : Shrinks (k + j) (andThen x f) := by
  intro s b t h
  unfold GenericSkip.andThen at h
  cases hs : x s with
  | error e => simp [hs] at h
  | ok p =>
    simp only [hs] at h
    have h1 := hx s p.1 p.2 hs
    have h2 := hf p.1 p.2 b t h
    omega

theorem Shrinks.weaken {α : Type} {k j : ℕ} {x : ByteRead α} (hx : Shrinks k x) (hj : j ≤ k) :
    Shrinks j x := by
  intro s a t h
  have := hx s a t h
  omega

theorem shrinks_readNat (k : ℕ) : Shrinks k (readNat k) := (shrinks_take k).mapRead

theorem shrinks_readType : Shrinks 1 readType := (shrinks_readNat 1).mapRead.mapRead

theorem shrinks_readSize : Shrinks 4 readSize := by
  refine Shrinks.andThen (j := 0) (shrinks_readNat 4).mapRead fun n => ?_
  split_ifs
  · intro s a t h
    cases h
  · exact shrinks_done _

theorem shrinks_readFieldBegin : Shrinks 1 readFieldBegin := by
  refine Shrinks.andThen (j := 0) shrinks_readType fun ft => ?_
  split_ifs
  · exact shrinks_done _
  · exact (shrinks_readNat 2).mapRead.mapRead.weaken (by omega)

theorem shrinks_readListBegin : Shrinks 1 readListBegin :=
  Shrinks.andThen (j := 0) shrinks_readType fun _ => shrinks_readSize.mapRead.weaken (by omega)

theorem shrinks_readMapBegin : Shrinks 1 readMapBegin :=
  Shrinks.andThen (j := 0) shrinks_readType fun _ =>
    (Shrinks.andThen shrinks_readType fun _ => shrinks_readSize.mapRead).weaken (by omega)

theorem shrinks_readString : Shrinks 1 readString :=
  (Shrinks.andThen (j := 0) shrinks_readSize fun _ => (shrinks_take _).weaken (by omega)).weaken
    (by omega)

def loud : Token → Bool
  | .structBegin | .structEnd | .fieldEnd | .mapEnd | .listEnd => false
  | _ => true

theorem reads_length {tok : Token} {s t : List UInt8} (h : binaryProtocol.Reads tok s t) :
    t.length + (if loud tok then 1 else 0) ≤ s.length := by
  cases tok with
  | structBegin | structEnd | fieldEnd | mapEnd | listEnd => exact shrinks_done () s () t h
  | fieldBegin ft fid => exact shrinks_readFieldBegin s _ t h
  | fieldStop =>
    obtain ⟨fid, h⟩ := h
    exact shrinks_readFieldBegin s _ t h
  | mapBegin kt vt n =>
    obtain ⟨kt', vt', h, _⟩ := h
    exact shrinks_readMapBegin s _ t h
  | listBegin et n => exact shrinks_readListBegin s _ t h
  | bool b => exact (shrinks_readNat 1).mapRead.mapRead s _ t h
  | byte n => exact (shrinks_readNat 1).mapRead s _ t h
  | i16 n => exact Shrinks.weaken (j := 1) (shrinks_readNat 2).mapRead (by omega) s _ t h
  | i32 n => exact Shrinks.weaken (j := 1) (shrinks_readNat 4).mapRead (by omega) s _ t h
  | i64 n => exact Shrinks.weaken (j := 1) (shrinks_readNat 8).mapRead (by omega) s _ t h
  | double bits => exact Shrinks.weaken (j := 1) (shrinks_readNat 8).mapRead (by omega) s _ t h
  | string bytes | binary bytes => exact shrinks_readString s _ t h

theorem consumes_length {toks : List Token} {s t : List UInt8}
    (h : binaryProtocol.Consumes s toks t) :
    t.length + toks.countP loud ≤ s.length := by
  induction toks generalizing s with
  | nil => exact le_of_eq (congrArg List.length h.symm)
  | cons tok toks ih =>
    obtain ⟨u, hu, ht⟩ := h
    have h1 := reads_length hu
    have h2 := ih ht
    rw [List.countP_cons]
    cases hs : loud tok <;> simp [hs] at h1 ⊢ <;> omega

/-- A third of the tokens of a value stand for bytes. -/
theorem tokens_length_le (w : WireValue) :
    w.tokens.length ≤ 3 * w.tokens.countP loud := by
  have sum : ∀ {α : Type} (toks : α → List Token) (items : List α),
      (∀ a ∈ items, (toks a).length ≤ 3 * (toks a).countP loud) →
      (items.flatMap toks).length ≤ 3 * (items.flatMap toks).countP loud := by
    intro α toks items
    induction items with
    | nil => simp
    | cons a items ih =>
      intro h
      have ha := h a (by simp)
      have hrest := ih fun b hb => h b (List.mem_cons_of_mem _ hb)
      simp only [List.flatMap_cons, List.length_append, List.countP_append]
      omega
  induction w using WireValue.induct with
  | bool | byte | i16 | i32 | i64 | double => simp [WireValue.tokens, loud]
  | string t b => cases t <;> simp [WireValue.tokens, loud]
  | list et ws ih | set et ws ih =>
    have h := sum WireValue.tokens ws ih
    simp only [WireValue.tokens, WireValue.elemTokens_eq, List.length_cons, List.length_append,
      List.length_nil, List.countP_cons, List.countP_append, List.countP_nil, loud, ↓reduceIte,
      Bool.false_eq_true]
    omega
  | map kt vt kvs ih =>
    have h := sum (fun e : WireValue × WireValue => e.1.tokens ++ e.2.tokens) kvs fun e he => by
      have hk := (ih e he).1
      have hv := (ih e he).2
      simp only [List.length_append, List.countP_append]
      omega
    simp only [WireValue.tokens, WireValue.entryTokens_eq, List.length_cons, List.length_append,
      List.length_nil, List.countP_cons, List.countP_append, List.countP_nil, loud, ↓reduceIte,
      Bool.false_eq_true]
    omega
  | struct fs ih =>
    have h := sum (fun f : Int16 × WireValue =>
        .fieldBegin f.2.type f.1 :: (f.2.tokens ++ [.fieldEnd])) fs fun f hf => by
      have hw := ih f hf
      simp only [List.length_cons, List.length_append, List.length_nil, List.countP_cons,
        List.countP_append, List.countP_nil, loud, ↓reduceIte, Bool.false_eq_true]
      omega
    simp only [WireValue.tokens, WireValue.fieldTokens_eq, List.length_cons, List.length_append,
      List.length_nil, List.countP_cons, List.countP_append, List.countP_nil, loud, ↓reduceIte,
      Bool.false_eq_true]
    omega

theorem binaryReads_shared : binaryReads.SharedList := ⟨fun _ => rfl, fun _ => rfl⟩

theorem binaryProtocol_framed : binaryProtocol.Framed where
  toSharedList := binaryReads_shared
  skip w s t hw h := by
    have hlen := consumes_length h
    have htok := tokens_length_le w
    exact skipsTo binaryReads_shared (fun _ => rfl) w hw s t _ h (by omega)
  listEnd _ := rfl
  mapEnd _ := rfl
  binary _ := rfl

theorem binaryProtocol_inverse : binaryProtocol.Inverse where
  toSharedList := binaryReads_shared
  decode_encode w hw _ := by
    have h := consumes_flatMap w.tokens [] (tokens_valid w hw)
    rw [List.append_nil] at h
    exact ⟨[], h⟩

end Sparsam.BinaryProtocol
