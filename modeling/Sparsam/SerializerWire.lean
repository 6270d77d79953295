import Sparsam.GenericSkip
import Sparsam.SerializerConformance

set_option autoImplicit false

/-!
# What serialize puts on the wire

`wireOf` is the wire value of a conforming Ruby value, and the writer's calls
are its tokens. `Ordinary` collects what the program promises of the objects it
serializes beyond their types.
-/
namespace Sparsam.SerializerWire
open WireProtocol RubyRuntime FieldInfoCache ExceptionState SerializerWrite
open DecoderCalls DecoderTyping SerializerConformance GenericSkip

section Wire
variable (sch : Schema)

mutual
def wireOf (fi : FieldInfo) : Value → WireValue
  | .int n =>
    match fi.ftype with
    | .I16 => .i16 (Int16.ofInt n)
    | .I32 => .i32 (Int32.ofInt n)
    | .I64 => .i64 (Int64.ofInt n)
    | _ => .byte (Int8.ofInt n)
  | .bool b => .bool b
  | .float bits => .double bits
  | .str _ bytes => .string fi.isBinaryString bytes
  | .ary xs =>
    match fi.elementType with
    | some e => .list e.ftype (wireElems e xs)
    | none => .list .STOP []
  | .set xs =>
    match fi.elementType with
    | some e => .set e.ftype (wireElems e xs)
    | none => .set .STOP []
  | .hash kvs =>
    match fi.keyType, fi.elementType with
    | some k, some e => .map k.ftype e.ftype (wireEntries k e kvs)
    | _, _ => .map .STOP .STOP []
  | .obj _ _ _ ivars =>
    match sch.fieldInfoMap fi.klass with
    | some fields => .struct (fields.entries.filterMap fun e => wireIvar e ivars)
    | none => .struct []
  | _ => .struct []

def wireElems (e : FieldInfo) : List Value → List WireValue
  | [] => []
  | x :: xs => wireOf e x :: wireElems e xs

def wireEntries (k e : FieldInfo) : List (Value × Value) → List (WireValue × WireValue)
  | [] => []
  | (x, y) :: kvs => (wireOf k x, wireOf e y) :: wireEntries k e kvs

/-- The field on the wire for an instance variable, none when it is nil. -/
def wireIvar (e : Int16 × FieldInfo) : List (ID × Value) → Option (Int16 × WireValue)
  | [] => none
  | (name, v) :: rest =>
    if name = e.2.ivarName then if v.isNil then none else some (e.1, wireOf e.2 v)
    else wireIvar e rest
end

theorem wireElems_eq (e : FieldInfo) (xs : List Value) :
    wireElems sch e xs = xs.map (wireOf sch e) := by
  induction xs with
  | nil => rfl
  | cons x xs ih => rw [wireElems, ih, List.map_cons]

theorem wireEntries_eq (k e : FieldInfo) (kvs : List (Value × Value)) :
    wireEntries sch k e kvs = kvs.map fun kv => (wireOf sch k kv.1, wireOf sch e kv.2) := by
  induction kvs with
  | nil => rfl
  | cons kv kvs ih =>
    obtain ⟨x, y⟩ := kv
    rw [wireEntries, ih, List.map_cons]

theorem wireIvar_eq (e : Int16 × FieldInfo) (ivars : List (ID × Value)) :
    wireIvar sch e ivars = if (ivarGet ivars e.2.ivarName).isNil then none
      else some (e.1, wireOf sch e.2 (ivarGet ivars e.2.ivarName)) := by
  induction ivars with
  | nil => rfl
  | cons d rest ih =>
    obtain ⟨name, v⟩ := d
    by_cases hn : name = e.2.ivarName
    · rw [wireIvar, ivarGet, if_pos hn, if_pos hn]
    · rw [wireIvar, ivarGet, if_neg hn, if_neg hn, ih]

theorem writeIvar_eq (data : RClass) (e : Int16 × FieldInfo) (ivars : List (ID × Value)) :
    writeIvar sch data e ivars = if (ivarGet ivars e.2.ivarName).isNil then pure ()
      else (do
        emit (.fieldBegin e.2.ftype e.1)
        writeAny sch data e.2.symName e.2.ftype e.2 (ivarGet ivars e.2.ivarName)
        emit .fieldEnd) := by
  induction ivars with
  | nil => rfl
  | cons d rest ih =>
    obtain ⟨name, v⟩ := d
    by_cases hn : name = e.2.ivarName
    · rw [writeIvar, ivarGet, if_pos hn, if_pos hn]
    · rw [writeIvar, ivarGet, if_neg hn, if_neg hn, ih]

end Wire

/-- Where the writer returns it has made exactly these calls. -/
def Writes (toks : List Token) (x : Writer Unit) : Prop :=
  ∀ out, Spec x out (fun _ t => t = out ++ toks) (fun _ _ => True)

/-- Where a conversion returns it gives `a` and has written nothing. -/
def Gives {α : Type} (a : α) (x : Writer α) : Prop :=
  ∀ out, Spec x out (fun b t => b = a ∧ t = out) (fun _ _ => True)

section Writes
variable {α : Type} {toks toks' : List Token}

theorem Writes.nil : Writes [] (pure ()) := fun out => Spec.pure (by simp)

theorem writes_emit (tok : Token) : Writes [tok] (emit tok) := fun _ => rfl

theorem Writes.bind {x : Writer Unit} {f : Unit → Writer Unit} (hx : Writes toks x)
    (hf : ∀ u, Writes toks' (f u)) : Writes (toks ++ toks') (x >>= f) := by
  intro out
  refine (hx out).seq fun u t ht => ?_
  rw [ht, ← List.append_assoc]
  exact hf u (out ++ toks)

theorem Writes.after {x : Writer Unit} (tok : Token) (hx : Writes toks x) :
    Writes (tok :: toks) (do emit tok; x) :=
  (writes_emit tok).bind fun _ => hx

theorem Gives.pure (a : α) : Gives a (Pure.pure a : Writer α) := fun _ => Spec.pure ⟨rfl, rfl⟩

theorem Gives.throw (a : α) (e : Err) : Gives a (throw e : Writer α) := fun _ => Spec.throw trivial

theorem Gives.emit {a : α} {x : Writer α} (hx : Gives a x) (g : α → Token) :
    Writes [g a] (do SerializerWrite.emit (g (← x))) := by
  intro out
  refine (hx out).seq fun b t hb => ?_
  rw [hb.1, hb.2]
  exact writes_emit (g a) out

theorem gives_byteConvert (n : ℤ) : Gives (Int8.ofInt n) (byteConvert n) := by
  unfold byteConvert shortConvert
  split_ifs with h
  · rw [pure_bind, Int16.toInt_ofInt_of_le h.1 h.2]
    split_ifs
    · exact Gives.pure _
    · exact Gives.throw _ _
  · exact fun out => Spec.bind (Spec.throw trivial)

theorem gives_convertFixnum (sch : Schema) (outer : RClass) (fieldSym : ID) {convert : ℤ → Writer α}
    {n : ℤ} {a : α} (h : Gives a (convert n)) (intended : TType) :
    Gives a (convertFixnum sch outer fieldSym convert intended (.int n)) := by
  unfold convertFixnum
  dsimp only
  split_ifs
  · exact h
  · exact Gives.throw _ _

theorem gives_convertI64 (sch : Schema) (outer : RClass) (fieldSym : ID) (n : ℤ) :
    Gives (Int64.ofInt n) (convertI64 sch outer fieldSym (.int n)) := by
  unfold convertI64 big2ll
  dsimp only
  split_ifs
  · exact Gives.pure _
  · exact Gives.pure _
  · exact Gives.throw _ _

end Writes

section Writer
variable {sch : Schema}

theorem writes_checkRequiredFields (klass : VALUE) (ivars : List (ID × Value))
    (entries : List (Int16 × FieldInfo)) :
    Writes [] (checkRequiredFields sch klass ivars entries) := by
  induction entries with
  | nil => exact Writes.nil
  | cons e rest ih =>
    rw [checkRequiredFields]
    split_ifs
    · exact fun _ => Spec.throw trivial
    · exact ih

theorem writes_forM {entries : List (Int16 × FieldInfo)} {write : Int16 × FieldInfo → Writer Unit}
    {toks : Int16 × FieldInfo → List Token} (h : ∀ e ∈ entries, Writes (toks e) (write e)) :
    Writes (entries.flatMap toks) (entries.forM write) := by
  induction entries with
  | nil => exact Writes.nil
  | cons e rest ih =>
    rw [List.flatMap_cons]
    change Writes (toks e ++ rest.flatMap toks) (do write e; rest.forM write)
    exact (h e (by simp)).bind fun _ => (ih fun e' he' => h e' (List.mem_cons_of_mem _ he'))

theorem fieldTokens_filterMap {α : Type} (g : α → Option (Int16 × WireValue)) (es : List α) :
    WireValue.fieldTokens (es.filterMap g) =
      es.flatMap fun e => WireValue.fieldTokens (g e).toList := by
  induction es with
  | nil => rfl
  | cons e es ih =>
    rw [List.flatMap_cons, ← ih, WireValue.fieldTokens_eq, WireValue.fieldTokens_eq,
      WireValue.fieldTokens_eq, ← List.flatMap_append]
    cases hg : g e with
    | none => rw [List.filterMap_cons_none hg]; rfl
    | some f => rw [List.filterMap_cons_some hg]; rfl

/-- The writer of one value makes the calls of its wire value. -/
def WritesWire (sch : Schema) (fi : FieldInfo) (v : Value) : Prop :=
  ∀ (outer : RClass) (fieldSym : ID),
    Writes (wireOf sch fi v).tokens (writeAny sch outer fieldSym fi.ftype fi v)

theorem writes_writeElems {e : FieldInfo} {xs : List Value} (h : ∀ x ∈ xs, WritesWire sch e x)
    (outer : RClass) (fieldSym : ID) :
    Writes (WireValue.elemTokens (wireElems sch e xs)) (writeElems sch outer fieldSym e xs) := by
  induction xs with
  | nil => exact Writes.nil
  | cons x xs ih =>
    rw [writeElems, wireElems, WireValue.elemTokens]
    exact (h x (by simp) outer fieldSym).bind fun _ =>
      ih fun y hy => h y (List.mem_cons_of_mem _ hy)

theorem writes_writeEntries {k e : FieldInfo} {kvs : List (Value × Value)}
    (hk : ∀ kv ∈ kvs, WritesWire sch k kv.1) (he : ∀ kv ∈ kvs, WritesWire sch e kv.2)
    (outer : RClass) (fieldSym : ID) :
    Writes (WireValue.entryTokens (wireEntries sch k e kvs))
      (writeEntries sch outer fieldSym k e kvs) := by
  induction kvs with
  | nil => exact Writes.nil
  | cons kv kvs ih =>
    obtain ⟨x, y⟩ := kv
    rw [writeEntries, wireEntries, WireValue.entryTokens]
    refine (hk (x, y) (by simp) outer fieldSym).bind fun _ => ?_
    refine (he (x, y) (by simp) outer fieldSym).bind fun _ => ?_
    exact ih (fun kv hkv => hk kv (List.mem_cons_of_mem _ hkv))
      fun kv hkv => he kv (List.mem_cons_of_mem _ hkv)

theorem wireOf_type {fi : FieldInfo} {v : Value} (h : Conforms sch fi v) :
    (wireOf sch fi v).type = fi.ftype := by
  cases h with
  | int fi n range => cases ht : fi.ftype <;> simp_all [wireOf, WireValue.type, inWidth]
  | bool fi b type => exact type.symm
  | double fi bits type => exact type.symm
  | string fi enc bytes type => exact type.symm
  | list fi e xs type element elems => simp only [wireOf, element, WireValue.type, type]
  | set fi e xs type element elems => simp only [wireOf, element, WireValue.type, type]
  | map fi k e kvs type key element keys values =>
    simp only [wireOf, key, element, WireValue.type, type]
  | struct fi oid eigen ivars fields type table required held =>
    simp only [wireOf, table, WireValue.type, type]

theorem writes_writeIvar {e : Int16 × FieldInfo} {ivars : List (ID × Value)}
    (hc : ivarGet ivars e.2.ivarName ≠ .nil → Conforms sch e.2 (ivarGet ivars e.2.ivarName))
    (h : ivarGet ivars e.2.ivarName ≠ .nil → WritesWire sch e.2 (ivarGet ivars e.2.ivarName))
    (data : RClass) :
    Writes (WireValue.fieldTokens (wireIvar sch e ivars).toList) (writeIvar sch data e ivars) := by
  rw [writeIvar_eq, wireIvar_eq]
  by_cases hn : ivarGet ivars e.2.ivarName = .nil
  · rw [hn]
    exact Writes.nil
  · have hnil : ¬ (ivarGet ivars e.2.ivarName).isNil = true := by
      rwa [Value.isNil_eq_true]
    rw [if_neg hnil, if_neg hnil]
    change Writes (WireValue.fieldTokens [(e.1, _)]) _
    rw [WireValue.fieldTokens, wireOf_type (hc hn), WireValue.fieldTokens]
    exact Writes.after _ ((h hn data e.2.symName).bind fun _ => writes_emit .fieldEnd)

theorem writesWire {fi : FieldInfo} {v : Value} (h : Conforms sch fi v) : WritesWire sch fi v := by
  induction h with
  | int fi n range =>
    intro outer fieldSym
    have short : Gives (Int16.ofInt n) (shortConvert n) := by
      unfold shortConvert
      split_ifs
      · exact Gives.pure _
      · exact Gives.throw _ _
    have int : Gives (Int32.ofInt n) (intConvert n) := by
      unfold intConvert
      split_ifs
      · exact Gives.pure _
      · exact Gives.throw _ _
    unfold wireOf writeAny
    cases ht : fi.ftype with
    | I16 => exact (gives_convertFixnum sch outer fieldSym short .I16).emit .i16
    | I32 => exact (gives_convertFixnum sch outer fieldSym int .I32).emit .i32
    | I64 => exact (gives_convertI64 sch outer fieldSym n).emit .i64
    | BYTE => exact (gives_convertFixnum sch outer fieldSym (gives_byteConvert n) .BYTE).emit .byte
    | _ => simp [ht, inWidth] at range
  | bool fi b type =>
    intro outer fieldSym
    unfold wireOf writeAny
    rw [type]
    exact (Gives.pure b).emit .bool
  | double fi bits type =>
    intro outer fieldSym
    unfold wireOf writeAny
    rw [type]
    exact (Gives.pure bits).emit .double
  | string fi enc bytes type =>
    intro outer fieldSym
    unfold wireOf writeAny
    rw [type]
    cases fi.isBinaryString with
    | true => exact writes_emit _
    | false => exact writes_emit _
  | list fi e xs type element elems ih =>
    intro outer fieldSym
    unfold wireOf writeAny
    simp only [type, element, WireValue.tokens]
    have hlen : (wireElems sch e xs).length = xs.length := by rw [wireElems_eq, List.length_map]
    rw [hlen]
    exact Writes.after _ ((writes_writeElems ih outer fieldSym).bind fun _ => writes_emit .listEnd)
  | set fi e xs type element elems ih =>
    intro outer fieldSym
    unfold wireOf writeAny
    simp only [type, element, WireValue.tokens, classOf, RClass.real, ne_eq, not_true_eq_false,
      ↓reduceIte]
    have hlen : (wireElems sch e xs).length = xs.length := by rw [wireElems_eq, List.length_map]
    rw [hlen]
    exact Writes.after _ ((writes_writeElems ih outer fieldSym).bind fun _ => writes_emit .listEnd)
  | map fi k e kvs type key element keys values ihk ihv =>
    intro outer fieldSym
    unfold wireOf writeAny
    simp only [type, key, element, WireValue.tokens]
    have hlen : (wireEntries sch k e kvs).length = kvs.length := by
      rw [wireEntries_eq, List.length_map]
    rw [hlen]
    exact Writes.after _
      ((writes_writeEntries ihk ihv outer fieldSym).bind fun _ => writes_emit .mapEnd)
  | struct fi oid eigen ivars fields type table required held ih =>
    intro outer fieldSym
    unfold wireOf writeAny
    simp only [type, real_classOf_obj, ne_eq, not_true_eq_false, ↓reduceIte, table,
      WireValue.tokens, fieldTokens_filterMap]
    unfold writeStructWith
    rw [table]
    have hbody := writes_forM fun e he => writes_writeIvar (held e he) (ih e he)
      (classOf (.obj oid fi.klass eigen ivars))
    refine Writes.after _ ?_
    exact ((writes_checkRequiredFields fi.klass ivars fields.entries).bind fun _ => hbody).bind
      fun _ => Writes.after .fieldStop (writes_emit .structEnd)

end Writer

/-- What the program promises of a value it serializes: sizes of 31 bits, strings
    tagged as their fields say, Hash and Set with the distinct keys they were built
    with, and unions as their own writers leave them. -/
inductive Ordinary (sch : Schema) : FieldInfo → Value → Prop
  | int (fi : FieldInfo) (n : ℤ) : Ordinary sch fi (.int n)
  | bool (fi : FieldInfo) (b : Bool) : Ordinary sch fi (.bool b)
  | double (fi : FieldInfo) (bits : UInt64) : Ordinary sch fi (.float bits)
  | string (fi : FieldInfo) (bytes : List UInt8) (size : bytes.length < 2 ^ 31) :
      Ordinary sch fi (.str (if fi.isBinaryString then .binary else .utf8) bytes)
  | list (fi e : FieldInfo) (xs : List Value) (element : fi.elementType = some e)
      (size : xs.length < 2 ^ 31) (elems : ∀ x ∈ xs, Ordinary sch e x) : Ordinary sch fi (.ary xs)
  | set (fi e : FieldInfo) (xs : List Value) (element : fi.elementType = some e)
      (size : xs.length < 2 ^ 31)
      (distinct : xs.Pairwise fun x y => sameKey sch.isUnion x y = false)
      (elems : ∀ x ∈ xs, Ordinary sch e x) : Ordinary sch fi (.set xs)
  | map (fi k e : FieldInfo) (kvs : List (Value × Value)) (key : fi.keyType = some k)
      (element : fi.elementType = some e) (size : kvs.length < 2 ^ 31)
      (distinct : kvs.Pairwise fun x y => sameKey sch.isUnion x.1 y.1 = false)
      (keys : ∀ kv ∈ kvs, Ordinary sch k kv.1) (values : ∀ kv ∈ kvs, Ordinary sch e kv.2) :
      Ordinary sch fi (.hash kvs)
  | struct (fi : FieldInfo) (oid : ℕ) (klass : VALUE) (eigen : Bool) (ivars : List (ID × Value))
      (fields : FieldInfoMap) (table : sch.fieldInfoMap fi.klass = some fields)
      (isStruct : sch.isUnion fi.klass = false)
      (held : ∀ e ∈ fields.entries, ivarGet ivars e.2.ivarName ≠ .nil →
        Ordinary sch e.2 (ivarGet ivars e.2.ivarName)) :
      Ordinary sch fi (.obj oid klass eigen ivars)
  | unset (fi : FieldInfo) (oid : ℕ) (klass : VALUE) (eigen : Bool) (ivars : List (ID × Value))
      (fields : FieldInfoMap) (table : sch.fieldInfoMap fi.klass = some fields)
      (isUnion : sch.isUnion fi.klass = true) (tag : setField ivars = none)
      (unset : ∀ e ∈ fields.entries, ivarGet ivars e.2.ivarName = .nil) :
      Ordinary sch fi (.obj oid klass eigen ivars)
  | union (fi : FieldInfo) (oid : ℕ) (klass : VALUE) (eigen : Bool) (ivars : List (ID × Value))
      (fields : FieldInfoMap) (e : Int16 × FieldInfo)
      (table : sch.fieldInfoMap fi.klass = some fields) (isUnion : sch.isUnion fi.klass = true)
      (member : e ∈ fields.entries) (name : e.2.symName ≠ "setfield")
      (tag : setField ivars = some e.2.symName) (value : ivarGet ivars e.2.ivarName ≠ .nil)
      (only : ∀ e' ∈ fields.entries, e' ≠ e → ivarGet ivars e'.2.ivarName = .nil)
      (held : Ordinary sch e.2 (ivarGet ivars e.2.ivarName)) :
      Ordinary sch fi (.obj oid klass eigen ivars)

/-- Each element differs from all before it. -/
def distinctKeys (isUnion : VALUE → Bool) (xs : List Value) : Bool :=
  decide (xs.Pairwise fun x y => sameKey isUnion x y = false)

mutual
def isOrdinary (sch : Schema) (fi : FieldInfo) : Value → Bool
  | .int _ | .bool _ | .float _ => true
  | .str enc bytes =>
    decide (enc = if fi.isBinaryString then .binary else .utf8) && decide (bytes.length < 2 ^ 31)
  | .ary xs => decide (xs.length < 2 ^ 31) && fi.elementType.any fun e => allOrdinary sch e xs
  | .set xs =>
    decide (xs.length < 2 ^ 31) && distinctKeys sch.isUnion xs &&
      fi.elementType.any fun e => allOrdinary sch e xs
  | .hash kvs =>
    decide (kvs.length < 2 ^ 31) && distinctKeys sch.isUnion (kvs.map Prod.fst) &&
      fi.keyType.any fun k => fi.elementType.any fun e => entriesOrdinary sch k e kvs
  | .obj _ _ _ ivars =>
    (sch.fieldInfoMap fi.klass).any fun fields =>
      if sch.isUnion fi.klass then
        match setField ivars with
        | none => fields.entries.all fun e => (ivarGet ivars e.2.ivarName).isNil
        | some f => fields.entries.any fun e => decide (e.2.symName = f) &&
            decide (f ≠ "setfield") && !(ivarGet ivars e.2.ivarName).isNil &&
            heldOrdinary sch e.2 ivars &&
            fields.entries.all fun e' => decide (e'.1 = e.1) || (ivarGet ivars e'.2.ivarName).isNil
      else fields.entries.all fun e => heldOrdinary sch e.2 ivars
  | _ => false

def allOrdinary (sch : Schema) (e : FieldInfo) : List Value → Bool
  | [] => true
  | x :: xs => isOrdinary sch e x && allOrdinary sch e xs

def entriesOrdinary (sch : Schema) (k e : FieldInfo) : List (Value × Value) → Bool
  | [] => true
  | (x, y) :: kvs => isOrdinary sch k x && isOrdinary sch e y && entriesOrdinary sch k e kvs

def heldOrdinary (sch : Schema) (e : FieldInfo) : List (ID × Value) → Bool
  | [] => true
  | (name, v) :: rest =>
    if name = e.ivarName then v.isNil || isOrdinary sch e v else heldOrdinary sch e rest
end

theorem allOrdinary_iff (sch : Schema) (e : FieldInfo) (xs : List Value) :
    allOrdinary sch e xs = true ↔ ∀ x ∈ xs, isOrdinary sch e x = true := by
  induction xs with
  | nil => simp [allOrdinary]
  | cons x xs ih => simp [allOrdinary, ih]

theorem entriesOrdinary_iff (sch : Schema) (k e : FieldInfo) (kvs : List (Value × Value)) :
    entriesOrdinary sch k e kvs = true ↔
      ∀ kv ∈ kvs, isOrdinary sch k kv.1 = true ∧ isOrdinary sch e kv.2 = true := by
  induction kvs with
  | nil => simp [entriesOrdinary]
  | cons kv kvs ih =>
    obtain ⟨x, y⟩ := kv
    simp only [entriesOrdinary, Bool.and_eq_true, ih, List.forall_mem_cons]

theorem heldOrdinary_iff (sch : Schema) (e : FieldInfo) (ivars : List (ID × Value)) :
    heldOrdinary sch e ivars = true ↔ (ivarGet ivars e.ivarName ≠ .nil →
      isOrdinary sch e (ivarGet ivars e.ivarName) = true) := by
  induction ivars with
  | nil => simp [heldOrdinary]
  | cons d rest ih =>
    obtain ⟨name, v⟩ := d
    by_cases hn : name = e.ivarName
    · simp only [heldOrdinary, ivarGet, hn, ↓reduceIte, Bool.or_eq_true, Value.isNil_eq_true]
      tauto
    · simpa only [heldOrdinary, ivarGet, hn, ↓reduceIte] using ih

theorem ordinary_of_isOrdinary {sch : Schema} (v : Value) :
    ∀ fi : FieldInfo, isOrdinary sch fi v = true → Ordinary sch fi v := by
  induction v using Value.induct with
  | nil | sym | klass | foreign => intro fi h; simp [isOrdinary] at h
  | int n => exact fun fi _ => .int fi n
  | bool b => exact fun fi _ => .bool fi b
  | float bits => exact fun fi _ => .double fi bits
  | str enc bytes =>
    intro fi h
    simp only [isOrdinary, Bool.and_eq_true, decide_eq_true_eq] at h
    rw [h.1]
    exact .string fi bytes h.2
  | ary xs ih =>
    intro fi h
    simp only [isOrdinary, Bool.and_eq_true, decide_eq_true_eq, Option.any_eq_true] at h
    obtain ⟨size, e, he, hall⟩ := h
    rw [allOrdinary_iff] at hall
    exact .list fi e xs he size fun x hx => ih x hx e (hall x hx)
  | set xs ih =>
    intro fi h
    simp only [isOrdinary, distinctKeys, Bool.and_eq_true, decide_eq_true_eq,
      Option.any_eq_true] at h
    obtain ⟨⟨size, distinct⟩, e, he, hall⟩ := h
    rw [allOrdinary_iff] at hall
    exact .set fi e xs he size distinct fun x hx => ih x hx e (hall x hx)
  | hash kvs ih =>
    intro fi h
    simp only [isOrdinary, distinctKeys, List.pairwise_map, Bool.and_eq_true, decide_eq_true_eq,
      Option.any_eq_true] at h
    obtain ⟨⟨size, distinct⟩, k, hk, e, he, hall⟩ := h
    rw [entriesOrdinary_iff] at hall
    exact .map fi k e kvs hk he size distinct (fun kv hkv => (ih kv hkv).1 k (hall kv hkv).1)
      fun kv hkv => (ih kv hkv).2 e (hall kv hkv).2
  | obj oid klass eigen ivars ih =>
    intro fi h
    have held : ∀ e : FieldInfo, heldOrdinary sch e ivars = true →
        ivarGet ivars e.ivarName ≠ .nil → Ordinary sch e (ivarGet ivars e.ivarName) := by
      intro e he hne
      exact ih _ (ivarGet_mem hne) e ((heldOrdinary_iff sch e ivars).mp he hne)
    simp only [isOrdinary, Option.any_eq_true] at h
    obtain ⟨fields, hf, h⟩ := h
    cases hu : sch.isUnion fi.klass with
    | false =>
      simp only [hu, Bool.false_eq_true, ↓reduceIte, List.all_eq_true] at h
      exact .struct fi oid klass eigen ivars fields hf hu fun e he => held e.2 (h e he)
    | true =>
      cases htag : setField ivars with
      | none =>
        simp only [hu, ↓reduceIte, htag, List.all_eq_true, Value.isNil_eq_true] at h
        exact .unset fi oid klass eigen ivars fields hf hu htag h
      | some f =>
        simp only [hu, ↓reduceIte, htag, List.any_eq_true, List.all_eq_true, Bool.and_eq_true,
          decide_eq_true_eq, Bool.or_eq_true, Bool.not_eq_true', Value.isNil_eq_true,
          Value.isNil_eq_false] at h
        obtain ⟨e, he, ⟨⟨⟨rfl, hname⟩, hne⟩, hheld⟩, honly⟩ := h
        refine .union fi oid klass eigen ivars fields e hf hu he hname htag hne ?_
          (held e.2 hheld hne)
        intro e' he' hdiff
        refine (honly e' he').resolve_left fun hid => hdiff ?_
        have h1 := (fields.find?_eq_some_iff e.1 e.2).mpr he
        have h2 := (fields.find?_eq_some_iff e'.1 e'.2).mpr he'
        rw [hid, h1] at h2
        exact Prod.ext hid (Option.some.inj h2).symm

theorem mem_filterMap_wireIvar {sch : Schema} {es : List (Int16 × FieldInfo)}
    {ivars : List (ID × Value)} {f : Int16 × WireValue}
    (h : f ∈ es.filterMap fun e => wireIvar sch e ivars) :
    ∃ e ∈ es, ivarGet ivars e.2.ivarName ≠ .nil ∧
      f = (e.1, wireOf sch e.2 (ivarGet ivars e.2.ivarName)) := by
  obtain ⟨e, he, hf⟩ := List.mem_filterMap.mp h
  rw [wireIvar_eq] at hf
  split_ifs at hf with hn
  rw [Value.isNil_eq_true] at hn
  exact ⟨e, he, hn, (Option.some.inj hf).symm⟩

theorem wireOf_wellFormed {sch : Schema} {fi : FieldInfo} {v : Value}
    (hg : fi.Generated sch.Cached) (h : Conforms sch fi v) (ho : Ordinary sch fi v) :
    (wireOf sch fi v).WellFormed := by
  induction h with
  | int fi n range =>
    unfold wireOf
    cases fi.ftype with
    | I16 => exact .i16 _
    | I32 => exact .i32 _
    | I64 => exact .i64 _
    | _ => exact .byte _
  | bool fi b type => exact .bool b
  | double fi bits type => exact .double bits
  | string fi enc bytes type =>
    cases ho with
    | string _ _ size => exact .string _ bytes size
  | list fi e xs type element elems ih =>
    cases ho with
    | list _ e' _ element' size elems' =>
      obtain rfl : e = e' := Option.some.inj (element.symm.trans element')
      have he := generated_element hg element
      simp only [wireOf, element, wireElems_eq]
      refine .list _ _ (by simpa using size) (generated_isWire he) ?_ ?_
      · exact List.forall_mem_map.mpr fun x hx => wireOf_type (elems x hx)
      · exact List.forall_mem_map.mpr fun x hx => ih x hx he (elems' x hx)
  | set fi e xs type element elems ih =>
    cases ho with
    | set _ e' _ element' size _ elems' =>
      obtain rfl : e = e' := Option.some.inj (element.symm.trans element')
      have he := generated_element hg element
      simp only [wireOf, element, wireElems_eq]
      refine .set _ _ (by simpa using size) (generated_isWire he) ?_ ?_
      · exact List.forall_mem_map.mpr fun x hx => wireOf_type (elems x hx)
      · exact List.forall_mem_map.mpr fun x hx => ih x hx he (elems' x hx)
  | map fi k e kvs type key element keys values ihk ihv =>
    cases ho with
    | map _ k' e' _ key' element' size _ keys' values' =>
      obtain rfl : k = k' := Option.some.inj (key.symm.trans key')
      obtain rfl : e = e' := Option.some.inj (element.symm.trans element')
      have hk := generated_key hg key
      have he := generated_element hg element
      simp only [wireOf, key, element, wireEntries_eq]
      refine .map _ _ _ (by simpa using size) (generated_isWire hk) (generated_isWire he) ?_ ?_ ?_
      · exact List.forall_mem_map.mpr fun kv hkv =>
          ⟨wireOf_type (keys kv hkv), wireOf_type (values kv hkv)⟩
      · exact List.forall_mem_map.mpr fun kv hkv => ihk kv hkv hk (keys' kv hkv)
      · exact List.forall_mem_map.mpr fun kv hkv => ihv kv hkv he (values' kv hkv)
  | struct fi oid eigen ivars fields type table required held ih =>
    simp only [wireOf, table]
    refine .struct _ fun f hf => ?_
    obtain ⟨e, he, hn, rfl⟩ := mem_filterMap_wireIvar hf
    refine ih e he hn (sch.generated fi.klass fields table e he) ?_
    cases ho with
    | struct _ _ _ _ _ fields' table' _ held' =>
      obtain rfl : fields = fields' := Option.some.inj (table.symm.trans table')
      exact held' e he hn
    | unset _ _ _ _ _ fields' table' _ _ unset =>
      obtain rfl : fields = fields' := Option.some.inj (table.symm.trans table')
      exact absurd (unset e he) hn
    | union _ _ _ _ _ fields' e' table' _ member _ _ _ only held' =>
      obtain rfl : fields = fields' := Option.some.inj (table.symm.trans table')
      by_cases heq : e = e'
      · rwa [heq]
      · exact absurd (only e he heq) hn

section Serialize
variable {σ : Type} (P : TProtocol σ) {sch : Schema}

theorem serialize_encode {oid : ℕ} {klass : VALUE} {eigen : Bool} {ivars : List (ID × Value)}
    {bytes : List UInt8} (hk : sch.Cached klass)
    (h : serialize P sch (.obj oid klass eigen ivars) = .ok bytes) :
    Conforms sch (classInfo klass) (.obj oid klass eigen ivars) ∧
      bytes = P.encode (wireOf sch (classInfo klass) (.obj oid klass eigen ivars)).tokens := by
  unfold serialize at h
  simp only [real_classOf_obj] at h
  rw [serializerWriteStruct_eq sch oid klass eigen ivars (.user klass) ""] at h
  cases hw : writeAny sch (.user klass) "" .STRUCT (classInfo klass)
      (.obj oid klass eigen ivars) [] with
  | error e out => simp [hw] at h
  | ok a out =>
    simp only [hw, Except.ok.injEq] at h
    have hpass : Passes sch (classInfo klass) (.obj oid klass eigen ivars) :=
      (decided (.obj oid klass eigen ivars) (.user klass) "" (classInfo klass)
        (generated_classInfo sch hk) []).of_ok hw
    have hc := conforms_of_passes (generated_classInfo sch hk) hpass
    have hout := (writesWire hc (.user klass) "" []).of_ok hw
    refine ⟨hc, ?_⟩
    rw [← h, hout, List.nil_append]

end Serialize

end Sparsam.SerializerWire
