import Sparsam.ExceptionState
import Sparsam.ObjectMethods
import Sparsam.SerializerWrite

set_option autoImplicit false

/-!
# `readAny`, `readStruct` and `readUnion`

The three readers over the state of the protocol. `nextOid` names the objects
`rb_class_new_instance` makes. `trace` records the steps of a run that the
results speak about, and `site` says where a call of `readAny` stands; no step
depends on either. The first argument bounds recursion and loops.
-/
namespace Sparsam.SerializerRead
open WireProtocol RubyRuntime FieldInfoCache ExceptionState ObjectMethods SerializerWrite

/-- The places that call `readAny`. -/
inductive Site where
  | field
  | member
  | element
  | key
  | value
deriving DecidableEq, Repr

inductive Event where
  /-- `readAny` is entered. -/
  | call (ttype : TType) (fi : FieldInfo)
  /-- A type off the wire is about to be read for a definition, unchecked. -/
  | header (site : Site) (ttype : TType) (fi : FieldInfo)
  /-- The elements of a container are skipped. -/
  | skip (site : Site) (elementType : TType) (fi : FieldInfo)
  /-- An object of the class is made. -/
  | instance (klass : VALUE)

structure RState (σ : Type) where
  input : σ
  nextOid : ℕ := 0
  trace : List Event := []

abbrev Reader (σ : Type) := EStateM Err (RState σ)

section Primitives
variable {σ α : Type}

/-- A call of the protocol; a `TException` is raised again as `Sparsam::Exception`. -/
def protocol (f : σ → Except TException (α × σ)) : Reader σ α := fun st =>
  match f st.input with
  | .ok (a, s) => .ok a { st with input := s }
  | .error what => .error (.raised .NativeError what none none) st

def record (e : Event) : Reader σ Unit := fun st =>
  .ok () { st with trace := st.trace ++ [e] }

def newOid : Reader σ ℕ := fun st => .ok st.nextOid { st with nextOid := st.nextOid + 1 }

theorem spec_protocol {f : σ → Except TException (α × σ)} {st : RState σ}
    {Q : α → RState σ → Prop} {E : Err → RState σ → Prop}
    (ok : ∀ a s, f st.input = .ok (a, s) → Q a { st with input := s })
    (error : ∀ what, E (.raised .NativeError what none none) st) : Spec (protocol f) st Q E := by
  unfold Spec protocol
  cases h : f st.input with
  | ok p => exact ok p.1 p.2 h
  | error what => exact error what

theorem spec_record {e : Event} {st : RState σ} {Q : Unit → RState σ → Prop}
    {E : Err → RState σ → Prop} (h : Q () { st with trace := st.trace ++ [e] }) :
    Spec (record e) st Q E := h

theorem spec_newOid {st : RState σ} {Q : ℕ → RState σ → Prop} {E : Err → RState σ → Prop}
    (h : Q st.nextOid { st with nextOid := st.nextOid + 1 }) : Spec newOid st Q E := h

end Primitives

structure Instance where
  oid : ℕ
  klass : VALUE
  ivars : List (ID × Value)

def Instance.set (ret : Instance) (name : ID) (v : Value) : Instance :=
  { ret with ivars := ivarSet ret.ivars name v }

def Instance.toValue (ret : Instance) : Value := .obj ret.oid ret.klass false ret.ivars

section Readers
variable {σ : Type} (P : TProtocol σ) (sch : Schema)

/-- `rb_class_new_instance(0, NULL, klass)` -/
def newInstance (klass : VALUE) : Reader σ Instance :=
  match sch.fieldInfoMap klass, sch.findClass klass with
  | some _, some c => do
    record (.instance klass)
    let oid ← newOid
    match newBare c with
    | .ok () ivars => pure ⟨oid, klass, ivars⟩
    | .error e _ => throw e.toErr
  | _, _ => throw .crash

theorem newInstance_none {klass : VALUE} (h : sch.fieldInfoMap klass = none) :
    (newInstance sch klass : Reader σ Instance) = throw .crash := by
  unfold newInstance
  rw [h]

theorem newInstance_makes {klass : VALUE} {fields : FieldInfoMap}
    (h : sch.fieldInfoMap klass = some fields) (hmakes : Makes sch klass) :
    (newInstance sch klass : Reader σ Instance) = (do
      record (.instance klass)
      let oid ← newOid
      pure ⟨oid, klass, newIvars sch klass⟩) := by
  obtain ⟨c, hc, -⟩ := sch.classes klass (by rw [h]; rfl)
  have hbare := (newBare_makes c).1 (hmakes c hc)
  unfold newInstance newIvars
  rw [h, hc]
  dsimp only [Option.elim]
  rw [hbare]

theorem newInstance_raises {klass : VALUE} {fields : FieldInfoMap}
    (h : sch.fieldInfoMap klass = some fields) (hmakes : ¬ Makes sch klass) :
    ∃ e : Err, e.isRaise = true ∧ (newInstance sch klass : Reader σ Instance) = (do
      record (.instance klass)
      let _ ← newOid
      throw e) := by
  obtain ⟨c, hc, -⟩ := sch.classes klass (by rw [h]; rfl)
  have hmakesC : ¬ MakesBare c := by
    intro hm
    refine hmakes fun c' hc' => ?_
    obtain rfl : c = c' := Option.some.inj (hc.symm.trans hc')
    exact hm
  obtain ⟨e, iv, he⟩ := (newBare_makes c).2 hmakesC
  refine ⟨e.toErr, e.isRaise_toErr, ?_⟩
  unfold newInstance
  rw [h, hc]
  dsimp only
  rw [he]

def findFieldInfoMap (klass : VALUE) : Reader σ FieldInfoMap :=
  match sch.fieldInfoMap klass with
  | none => throw .crash
  | some fields => pure fields

def skipNType (n : ℕ) (ttype : TType) : Reader σ Unit := do
  let _ ← times (protocol (P.skip ttype)) n
  pure ()

def skipNPair (n : ℕ) (typeA typeB : TType) : Reader σ Unit := do
  let _ ← times (do protocol (P.skip typeA); protocol (P.skip typeB)) n
  pure ()

mutual
def readAny : ℕ → Site → TType → FieldInfo → Reader σ Value
  | 0, _, ttype, fi => do
    record (.call ttype fi)
    throw .outOfFuel
  | n + 1, site, ttype, fi => do
    record (.call ttype fi)
    match ttype with
    | .I16 => do pure (.int (← protocol P.readI16).toInt)
    | .I32 => do pure (.int (← protocol P.readI32).toInt)
    | .I64 => do pure (.int (← protocol P.readI64).toInt)
    | .BOOL => do pure (.bool (← protocol P.readBool))
    | .DOUBLE => do pure (.float (← protocol P.readDouble))
    | .BYTE => do pure (.int (← protocol P.readByte).toInt)
    | .STRING =>
      if fi.isBinaryString then do pure (.str .binary (← protocol P.readBinary))
      else do pure (.str .utf8 (← protocol P.readString))
    | .LIST => do
      let (elementType, size) ← protocol P.readListBegin
      match fi.elementType with
      | none => do
        record (.skip site elementType fi)
        skipNType P size.toNat elementType
        pure .nil
      | some e =>
        if elementType ≠ e.ftype then do
          record (.skip site elementType fi)
          skipNType P size.toNat elementType
          pure .nil
        else do
          let ret ← times (readAny n .element elementType e) size.toNat
          protocol P.readListEnd
          pure (.ary ret)
    | .SET => do
      let (elementType, size) ← protocol P.readSetBegin
      match fi.elementType with
      | none => do
        record (.skip site elementType fi)
        skipNType P size.toNat elementType
        pure .nil
      | some e =>
        if elementType ≠ e.ftype then do
          record (.skip site elementType fi)
          skipNType P size.toNat elementType
          pure .nil
        else do
          let ary ← times (readAny n .element elementType e) size.toNat
          protocol P.readSetEnd
          pure (.set (setNew sch.isUnion ary))
    | .STRUCT => do
      protocol P.readStructBegin
      let ret ← if sch.isUnion fi.klass then readUnion n fi.klass else readStruct n fi.klass
      protocol P.readStructEnd
      pure ret
    | .MAP => do
      let (keyType, valueType, size) ← protocol P.readMapBegin
      match fi.keyType, fi.elementType with
      | some k, some e => do
        -- No check of the two types of the entries here.
        let ret ← times (do
          record (.header .key keyType k)
          let key ← readAny n .key keyType k
          record (.header .value valueType e)
          let value ← readAny n .value valueType e
          pure (key, value)) size.toNat
        protocol P.readMapEnd
        pure (.hash (ret.foldl (fun h e => hashAset sch.isUnion h e.1 e.2) []))
      | _, _ => do
        record (.skip site valueType fi)
        skipNPair P size.toNat keyType valueType
        pure .nil
    | _ => do
      protocol (P.skip ttype)
      throw (.raised .UnknownTypeException
        ("Received unknown type with id: " ++ toString ttype.toInt) none none)

def readStruct : ℕ → VALUE → Reader σ Value
  | 0, _ => throw .outOfFuel
  | n + 1, klass => do
    let ret ← newInstance sch klass
    let fields ← findFieldInfoMap sch klass
    readFields n klass fields ret

/-- The loop of `readStruct`. -/
def readFields : ℕ → VALUE → FieldInfoMap → Instance → Reader σ Value
  | 0, _, _, _ => throw .outOfFuel
  | n + 1, klass, fields, ret => do
    let (ftype, fid) ← protocol P.readFieldBegin
    if ftype = .STOP then pure ret.toValue
    else
      match fields.find? fid with
      | none => do
        protocol (P.skip ftype)
        protocol P.readFieldEnd
        readFields n klass fields ret
      | some fi =>
        if fi.ftype ≠ ftype then
          raiseExcWithStructAndFieldNames .TypeMismatch
            ("Mismatched type (definition: " ++ tTypeName ftype.toInt ++ ", found: " ++
              tTypeName fi.ftype.toInt ++ ")")
            (sch.className klass) fi.symName
        else do
          let rbValue ← readAny n .field ftype fi
          protocol P.readFieldEnd
          readFields n klass fields
            (if rbValue.isNil then ret else ret.set fi.ivarName rbValue)

def readUnion : ℕ → VALUE → Reader σ Value
  | 0, _ => throw .outOfFuel
  | n + 1, klass => do
    let ret ← newInstance sch klass
    let fields ← findFieldInfoMap sch klass
    let (ftype, fid) ← protocol P.readFieldBegin
    if ftype = .STOP then pure ret.toValue
    else
      match fields.find? fid with
      | none => do
        protocol (P.skip ftype)
        protocol P.readFieldEnd
        pure ret.toValue
      | some fi => do
        record (.header .member ftype fi)
        let rbValue ← readAny n .member ftype fi
        protocol P.readFieldEnd
        let (ftype', _) ← protocol P.readFieldBegin
        if ftype' ≠ .STOP then
          throw (.raised .UnionException "More than one element in union." none none)
        else
          pure (if rbValue.isNil then ret
            else (ret.set "@setfield" (.sym fi.symName)).set fi.ivarName rbValue).toValue
end

def serializerReadStruct (n : ℕ) (klass : VALUE) : Reader σ Value := do
  protocol P.readStructBegin
  let ret ← readStruct P sch n klass
  protocol P.readStructEnd
  pure ret

def serializerReadUnion (n : ℕ) (klass : VALUE) : Reader σ Value := do
  protocol P.readStructBegin
  let ret ← readUnion P sch n klass
  protocol P.readStructEnd
  pure ret

def deserialize (n : ℕ) (klass : VALUE) (bytes : List UInt8) :
    EStateM.Result Err (RState σ) Value :=
  (if sch.isUnion klass then serializerReadUnion P sch n klass
    else serializerReadStruct P sch n klass) { input := P.openBuffer bytes }

end Readers

section Fuel
variable {σ : Type} (P : TProtocol σ) (sch : Schema)

theorem upto_fuel (n : ℕ) : ∀ m, n ≤ m →
    (∀ site ttype fi, Upto .outOfFuel (readAny P sch n site ttype fi)
      (readAny P sch m site ttype fi)) ∧
    (∀ klass, Upto .outOfFuel (readStruct P sch n klass) (readStruct P sch m klass)) ∧
    (∀ klass fields ret, Upto .outOfFuel (readFields P sch n klass fields ret)
      (readFields P sch m klass fields ret)) ∧
    ∀ klass, Upto .outOfFuel (readUnion P sch n klass) (readUnion P sch m klass) := by
  induction n with
  | zero =>
    intro m _
    refine ⟨fun site ttype fi => ?_, fun klass => ?_, fun klass fields ret => ?_, fun klass => ?_⟩
    · cases m with
      | zero => exact Upto.refl _ _
      | succ m =>
        unfold readAny
        exact Upto.seq fun _ => Upto.throw _ _
    · rw [readStruct]
      exact Upto.throw _ _
    · rw [readFields]
      exact Upto.throw _ _
    · rw [readUnion]
      exact Upto.throw _ _
  | succ n ih =>
    intro m hm
    obtain ⟨m, rfl⟩ : ∃ k, m = k + 1 := ⟨m - 1, by omega⟩
    obtain ⟨hany, hstruct, hfields, hunion⟩ := ih m (by omega)
    refine ⟨fun site ttype fi => ?_, fun klass => ?_, fun klass fields ret => ?_, fun klass => ?_⟩
    · unfold readAny
      refine Upto.seq fun _ => ?_
      cases ttype with
      | LIST =>
        refine Upto.seq fun ⟨elementType, size⟩ => ?_
        cases fi.elementType with
        | none => exact Upto.refl _ _
        | some e =>
          dsimp only
          split
          · exact Upto.refl _ _
          · exact ((hany _ _ _).times _).bind fun _ => Upto.refl _ _
      | SET =>
        refine Upto.seq fun ⟨elementType, size⟩ => ?_
        cases fi.elementType with
        | none => exact Upto.refl _ _
        | some e =>
          dsimp only
          split
          · exact Upto.refl _ _
          · exact ((hany _ _ _).times _).bind fun _ => Upto.refl _ _
      | STRUCT =>
        refine Upto.seq fun _ => ?_
        split
        · exact (hunion _).bind fun _ => Upto.refl _ _
        · exact (hstruct _).bind fun _ => Upto.refl _ _
      | MAP =>
        refine Upto.seq fun _ => ?_
        cases fi.keyType with
        | none => exact Upto.refl _ _
        | some k =>
          cases fi.elementType with
          | none => exact Upto.refl _ _
          | some e =>
            refine Upto.bind (Upto.times ?_ _) fun _ => Upto.refl _ _
            exact Upto.seq fun _ => (hany _ _ _).bind fun _ => Upto.seq fun _ =>
              (hany _ _ _).bind fun _ => Upto.refl _ _
      | _ => exact Upto.refl _ _
    · rw [readStruct, readStruct]
      exact Upto.seq fun _ => Upto.seq fun _ => hfields _ _ _
    · rw [readFields, readFields]
      refine Upto.seq fun _ => ?_
      dsimp only
      split
      · exact Upto.refl _ _
      · cases fields.find? _ with
        | none => exact Upto.seq fun _ => Upto.seq fun _ => hfields _ _ _
        | some fi =>
          dsimp only
          split
          · exact Upto.refl _ _
          · exact (hany _ _ _).bind fun _ => Upto.seq fun _ => hfields _ _ _
    · rw [readUnion, readUnion]
      refine Upto.seq fun _ => Upto.seq fun _ => Upto.seq fun _ => ?_
      dsimp only
      split
      · exact Upto.refl _ _
      · split
        · exact Upto.refl _ _
        · exact Upto.seq fun _ => (hany _ _ _).bind fun _ => Upto.refl _ _

theorem deserialize_fuel {n m : ℕ} (h : n ≤ m) {klass : VALUE} {bytes : List UInt8} {y : Value}
    {st : RState σ} (hok : deserialize P sch n klass bytes = .ok y st) :
    deserialize P sch m klass bytes = .ok y st := by
  obtain ⟨-, hstruct, -, hunion⟩ := upto_fuel P sch n m h
  refine Upto.ok (e := .outOfFuel) ?_ hok
  split
  · exact Upto.seq fun _ => (hunion klass).bind fun _ => Upto.refl _ _
  · exact Upto.seq fun _ => (hstruct klass).bind fun _ => Upto.refl _ _

end Fuel

end Sparsam.SerializerRead
