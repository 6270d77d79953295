import Mathlib.Data.List.Nodup
import Sparsam.RubyRuntime
import Sparsam.SortedMap
import Sparsam.WireProtocol

set_option autoImplicit false

/-!
# Field tables and the class cache

`createFieldInfoMap` turns the evaluated `FIELDS` constant of a class into the
table the serializer works with, and `findOrCreateFieldInfoMap` keeps one table
for each class. `Schema` is the state of the extension once a generated program
is loaded; `Loading` builds it from the class definitions.
-/
namespace Sparsam.FieldInfoCache
open WireProtocol RubyRuntime

/-- `struct FieldInfo`. `klass = 0`, the empty name and `none` are what
    `new FieldInfo()` leaves. -/
structure FieldInfo where
  ftype : TType
  klass : VALUE := 0
  ivarName : ID := ""
  symName : ID := ""
  isOptional : Bool := false
  isBinaryString : Bool := false
  elementType : Option FieldInfo := none
  keyType : Option FieldInfo := none

def sameInfo : FieldInfo → FieldInfo → Bool
  | ⟨t, k, iv, sy, opt, bin, none, none⟩, ⟨t', k', iv', sy', opt', bin', none, none⟩ =>
    decide ((t, k, iv, sy, opt, bin) = (t', k', iv', sy', opt', bin'))
  | ⟨t, k, iv, sy, opt, bin, some e, none⟩, ⟨t', k', iv', sy', opt', bin', some e', none⟩ =>
    decide ((t, k, iv, sy, opt, bin) = (t', k', iv', sy', opt', bin')) && sameInfo e e'
  | ⟨t, k, iv, sy, opt, bin, none, some key⟩, ⟨t', k', iv', sy', opt', bin', none, some key'⟩ =>
    decide ((t, k, iv, sy, opt, bin) = (t', k', iv', sy', opt', bin')) && sameInfo key key'
  | ⟨t, k, iv, sy, opt, bin, some e, some key⟩,
      ⟨t', k', iv', sy', opt', bin', some e', some key'⟩ =>
    decide ((t, k, iv, sy, opt, bin) = (t', k', iv', sy', opt', bin')) && sameInfo e e' &&
      sameInfo key key'
  | _, _ => false

theorem sameInfo_refl (fi : FieldInfo) : sameInfo fi fi = true := by
  refine FieldInfo.rec (motive_1 := fun fi => sameInfo fi fi = true)
    (motive_2 := fun o => ∀ fi ∈ o, sameInfo fi fi = true) ?_ (by simp) (by simp) fi
  intro t k iv sy opt bin e key he hkey
  cases e with
  | none =>
    cases key with
    | none => exact decide_eq_true rfl
    | some key =>
      unfold sameInfo
      rw [hkey key rfl]
      simp
  | some e =>
    cases key with
    | none =>
      unfold sameInfo
      rw [he e rfl]
      simp
    | some key =>
      unfold sameInfo
      rw [he e rfl, hkey key rfl]
      simp

theorem eq_of_sameInfo {fi fi' : FieldInfo} (h : sameInfo fi fi' = true) : fi = fi' := by
  fun_induction sameInfo fi fi' with
  | case1 => simpa using h
  | case2 _ _ _ _ _ _ _ _ _ _ _ _ _ _ ih =>
    simp only [Bool.and_eq_true, decide_eq_true_eq, Prod.mk.injEq] at h
    obtain ⟨⟨rfl, rfl, rfl, rfl, rfl, rfl⟩, hinner⟩ := h
    rw [ih hinner]
  | case3 _ _ _ _ _ _ _ _ _ _ _ _ _ _ ih =>
    simp only [Bool.and_eq_true, decide_eq_true_eq, Prod.mk.injEq] at h
    obtain ⟨⟨rfl, rfl, rfl, rfl, rfl, rfl⟩, hinner⟩ := h
    rw [ih hinner]
  | case4 _ _ _ _ _ _ _ _ _ _ _ _ _ _ _ _ ihe ihk =>
    simp only [Bool.and_eq_true, decide_eq_true_eq, Prod.mk.injEq] at h
    obtain ⟨⟨⟨rfl, rfl, rfl, rfl, rfl, rfl⟩, helem⟩, hkey⟩ := h
    rw [ihe helem, ihk hkey]
  | case5 => cases h

instance : DecidableEq FieldInfo := fun fi fi' =>
  decidable_of_iff (sameInfo fi fi' = true) ⟨eq_of_sameInfo, fun h => h ▸ sameInfo_refl fi⟩

/-- The definition a whole object is read and written for. -/
def classInfo (klass : VALUE) : FieldInfo := { ftype := .STRUCT, klass := klass }

abbrev FieldInfoMap := SortedMap Int16 FieldInfo

def internStr (bytes : List UInt8) : ID := String.ofList (bytes.map fun b => Char.ofNat b.toNat)

def rubyStr (s : String) : Value := .str .utf8 (s.toList.map fun c => UInt8.ofNat c.toNat)

def isSym (name : ID) : Value → Bool
  | .sym s => s == name
  | _ => false

/-- `rb_hash_aref(hash, :name)` -/
def hashAref (name : ID) : List (Value × Value) → Value
  | [] => .nil
  | (k, v) :: rest => if isSym name k then v else hashAref name rest

def rtest : Value → Bool
  | .nil => false
  | .bool false => false
  | _ => true

def fieldNameToIvarId : Value → ID
  | .str _ bytes => "@" ++ internStr bytes
  | _ => ""

def fieldNameToSym : Value → ID
  | .str _ bytes => internStr bytes
  | _ => ""

mutual
/-- `none` is a crash or an exception on an entry that is no field definition. -/
def createFieldInfo : Value → Option FieldInfo
  | .hash entry =>
    match hashAref "type" entry with
    | .int t =>
      let fieldInfo : FieldInfo :=
        { ftype := .ofInt t
          isOptional := rtest (hashAref "optional" entry)
          ivarName := fieldNameToIvarId (hashAref "name" entry)
          symName := fieldNameToSym (hashAref "name" entry) }
      match TType.ofInt t with
      | .STRING => some { fieldInfo with isBinaryString := rtest (hashAref "binary" entry) }
      | .STRUCT =>
        match hashAref "class" entry with
        | .klass k => some { fieldInfo with klass := k }
        | _ => none
      | .LIST | .SET =>
        (createFieldInfoAt "element" entry).map fun e => { fieldInfo with elementType := some e }
      | .MAP =>
        (createFieldInfoAt "key" entry).bind fun k =>
          (createFieldInfoAt "value" entry).map fun v =>
            { fieldInfo with keyType := some k, elementType := some v }
      | _ => some fieldInfo
    | _ => none
  | _ => none

/-- `CreateFieldInfo(rb_hash_aref(field_map_entry, :name))` -/
def createFieldInfoAt (name : ID) : List (Value × Value) → Option FieldInfo
  | [] => none
  | (k, v) :: rest => if isSym name k then createFieldInfo v else createFieldInfoAt name rest
end

def fix2int : Value → Option ℤ
  | .int n => if -2 ^ 31 ≤ n ∧ n < 2 ^ 31 then some n else none
  | _ => none

/-- `(*fieldMap)[FIX2INT(k)] = CreateFieldInfo(v)`, where the key is narrowed to 16 bits. -/
def addField (fieldMap : FieldInfoMap) (entry : Value × Value) : Option FieldInfoMap :=
  (fix2int entry.1).bind fun k =>
    (createFieldInfo entry.2).map fun fieldInfo => fieldMap.insert (Int16.ofInt k) fieldInfo

def createFieldInfoMap (fields : List (Value × Value)) : Option FieldInfoMap :=
  fields.foldlM addField SortedMap.empty

def fieldDefName : Value → ID
  | .hash fieldDef => fieldNameToSym (hashAref "name" fieldDef)
  | _ => ""

theorem createFieldInfo_symName {v : Value} {fi : FieldInfo} (h : createFieldInfo v = some fi) :
    fi.symName = fieldDefName v := by
  cases v with
  | hash entry =>
    unfold createFieldInfo at h
    cases ht : hashAref "type" entry with
    | int t =>
      rw [ht] at h
      dsimp only at h
      cases hk : TType.ofInt t with
      | STRUCT =>
        rw [hk] at h
        dsimp only at h
        cases hc : hashAref "class" entry with
        | klass k =>
          rw [hc] at h
          rw [← Option.some.inj h]
          rfl
        | _ =>
          rw [hc] at h
          cases h
      | LIST =>
        rw [hk] at h
        obtain ⟨e, -, h⟩ := Option.map_eq_some_iff.mp h
        rw [← h]
        rfl
      | SET =>
        rw [hk] at h
        obtain ⟨e, -, h⟩ := Option.map_eq_some_iff.mp h
        rw [← h]
        rfl
      | MAP =>
        rw [hk] at h
        obtain ⟨k, -, h⟩ := Option.bind_eq_some_iff.mp h
        obtain ⟨e, -, h⟩ := Option.map_eq_some_iff.mp h
        rw [← h]
        rfl
      | _ =>
        rw [hk] at h
        rw [← Option.some.inj h]
        rfl
    | _ =>
      rw [ht] at h
      cases h
  | _ => cases h

theorem createFieldInfoMap_mem {fields : List (Value × Value)} {m : FieldInfoMap}
    (h : createFieldInfoMap fields = some m) :
    ∀ e ∈ m.entries, ∃ d ∈ fields, ∃ k, fix2int d.1 = some k ∧ e.1 = Int16.ofInt k ∧
      createFieldInfo d.2 = some e.2 := by
  have hfold : ∀ (ds : List (Value × Value)) (acc : FieldInfoMap), ds.foldlM addField acc = some m →
      ∀ e ∈ m.entries, e ∈ acc.entries ∨ ∃ d ∈ ds, ∃ k, fix2int d.1 = some k ∧
        e.1 = Int16.ofInt k ∧ createFieldInfo d.2 = some e.2 := by
    intro ds
    induction ds with
    | nil =>
      intro acc h e he
      obtain rfl : acc = m := by simpa using h
      exact .inl he
    | cons d ds ih =>
      intro acc h e he
      simp only [List.foldlM_cons, Option.bind_eq_bind, Option.bind_eq_some_iff] at h
      obtain ⟨acc', hadd, h⟩ := h
      rcases ih acc' h e he with he | ⟨d', hd', hrest⟩
      · obtain ⟨k, hk, hadd⟩ := Option.bind_eq_some_iff.mp hadd
        obtain ⟨fi, hfi, rfl⟩ := Option.map_eq_some_iff.mp hadd
        rcases SortedMap.mem_insertList he with rfl | he
        · exact .inr ⟨d, by simp, k, hk, rfl, hfi⟩
        · exact .inl he
      · exact .inr ⟨d', by simp [hd'], hrest⟩
  intro e he
  rcases hfold fields SortedMap.empty h e he with he | he
  · cases he
  · exact he

/-- A generated class as Ruby holds it: its name, its base class and its constant `FIELDS`. -/
structure RubyClass where
  name : String
  superclass : Superclass
  fields : List (Value × Value)

def RubyClass.inheritsUnion (c : RubyClass) : Bool := decide (c.superclass = .union)

def RubyClass.fieldNames (c : RubyClass) : List ID := c.fields.map fun e => fieldDefName e.2

structure Globals where
  klassCache : List (VALUE × FieldInfoMap) := []
  unions : List VALUE := []

def findOrCreateFieldInfoMap (klass : VALUE) (c : RubyClass) (g : Globals) :
    Option (FieldInfoMap × Globals) :=
  match g.klassCache.lookup klass with
  | some ret => some (ret, g)
  | none =>
    let unions := if c.inheritsUnion then klass :: g.unions else g.unions
    (createFieldInfoMap c.fields).map fun ret =>
      (ret, { klassCache := (klass, ret) :: g.klassCache, unions := unions })

/-- `generate_default_values`: the entries of `DEFAULT_VALUES`. -/
def generateDefaultValues (fields : List (Value × Value)) : List (ID × Value) :=
  fields.filterMap fun e =>
    match e.2 with
    | .hash fieldDef =>
      let default := hashAref "default" fieldDef
      if default.isNil then none else some (fieldNameToSym (hashAref "name" fieldDef), default)
    | _ => none

/-- The shape `createFieldInfo` gives the definitions the compiler prints. -/
inductive FieldInfo.Generated (cached : VALUE → Prop) : FieldInfo → Prop
  | scalar (fi : FieldInfo)
      (type : fi.ftype ∈ [TType.BOOL, .BYTE, .DOUBLE, .I16, .I32, .I64, .STRING])
      (klass : fi.klass = 0) (element : fi.elementType = none) (key : fi.keyType = none) :
      Generated cached fi
  | sequence (fi e : FieldInfo) (type : fi.ftype ∈ [TType.LIST, .SET])
      (klass : fi.klass = 0) (element : fi.elementType = some e) (key : fi.keyType = none)
      (elem : Generated cached e) : Generated cached fi
  | map (fi k e : FieldInfo) (type : fi.ftype = .MAP)
      (klass : fi.klass = 0) (element : fi.elementType = some e) (key : fi.keyType = some k)
      (keyGenerated : Generated cached k) (elem : Generated cached e) : Generated cached fi
  | struct (fi : FieldInfo) (type : fi.ftype = .STRUCT)
      (klass : cached fi.klass) (element : fi.elementType = none) (key : fi.keyType = none) :
      Generated cached fi

/-- The extension over a loaded program: what is cached was made from a class, every class
    a field names is cached, no class is the zero VALUE, and the fields of a class have
    their own names. -/
structure Schema where
  fieldInfoMap : VALUE → Option FieldInfoMap
  findClass : VALUE → Option RubyClass
  isUnion : VALUE → Bool
  className : VALUE → String
  defaultValues : VALUE → List (ID × Value)
  zero : fieldInfoMap 0 = none
  classes : ∀ klass, (fieldInfoMap klass).isSome → ∃ c, findClass klass = some c ∧
    fieldInfoMap klass = createFieldInfoMap c.fields ∧ isUnion klass = c.inheritsUnion ∧
    defaultValues klass = generateDefaultValues c.fields
  generated : ∀ klass fields, fieldInfoMap klass = some fields →
    ∀ e ∈ fields.entries, e.2.Generated fun k => (fieldInfoMap k).isSome
  ivarName : ∀ klass fields, fieldInfoMap klass = some fields →
    ∀ e ∈ fields.entries, e.2.ivarName = "@" ++ e.2.symName
  names : ∀ klass fields, fieldInfoMap klass = some fields →
    (fields.entries.map fun e => e.2.symName).Nodup

namespace Schema
variable (sch : Schema)

def Cached (klass : VALUE) : Prop := (sch.fieldInfoMap klass).isSome

instance : DecidablePred sch.Cached := fun klass =>
  inferInstanceAs (Decidable ((sch.fieldInfoMap klass).isSome = true))

theorem entry_unique {klass : VALUE} {fields : FieldInfoMap}
    (h : sch.fieldInfoMap klass = some fields) {e e' : Int16 × FieldInfo}
    (he : e ∈ fields.entries) (he' : e' ∈ fields.entries) (hn : e.2.ivarName = e'.2.ivarName) :
    e = e' := by
  rw [sch.ivarName klass fields h e he, sch.ivarName klass fields h e' he',
    String.append_right_inj] at hn
  exact List.inj_on_of_nodup_map (sch.names klass fields h) he he' hn

def rbClassName (c : RClass) : String :=
  match c.real with
  | .builtin name => name
  | .other name => name
  | .user k => sch.className k
  | .eigen _ => ""

end Schema

end Sparsam.FieldInfoCache
