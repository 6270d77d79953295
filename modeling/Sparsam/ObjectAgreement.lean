import Sparsam.DecoderTyping
import Sparsam.ListPairing

set_option autoImplicit false

/-!
# Agreement of a decoded object with the one that was written

The writer and the reader may run over two schemas: `Extends old new ρ` when
`new` has the classes of `old`, under the names `ρ` gives them, with further
fields in some of the structs. `Agrees` relates an object of `new` to what is
left of it over `old`.
-/
namespace Sparsam.ObjectAgreement
open ListPairing WireProtocol RubyRuntime FieldInfoCache ObjectMethods SerializerRead

section Keys
variable (isUnion : VALUE → Bool)

theorem sameKeyAt_eq (name : ID) (iv : List (ID × Value)) (w : Value) :
    sameKeyAt isUnion name iv w = sameKey isUnion (ivarGet iv name) w := by
  induction iv with
  | nil => simp only [sameKeyAt, ivarGet, sameKey]
  | cons e rest ih =>
    obtain ⟨n, x⟩ := e
    by_cases h : n = name
    · simp only [sameKeyAt, ivarGet, h, ↓reduceIte]
    · simp only [sameKeyAt, ivarGet, h, ↓reduceIte, ih]

theorem sameKeys_iff (xs ys : List Value) : sameKeys isUnion xs ys = true ↔
    xs.length = ys.length ∧ ∀ (i : ℕ) (h : i < xs.length) (h' : i < ys.length),
      sameKey isUnion xs[i] ys[i] = true := by
  induction xs generalizing ys with
  | nil => cases ys <;> simp [sameKeys]
  | cons x xs ih =>
    cases ys with
    | nil => simp [sameKeys]
    | cons y ys =>
      simp only [sameKeys, Bool.and_eq_true, ih, List.length_cons, Nat.add_right_cancel_iff]
      constructor
      · rintro ⟨hx, hlen, hxs⟩
        refine ⟨hlen, fun i h h' => ?_⟩
        cases i with
        | zero => exact hx
        | succ i => exact hxs i (by omega) (by omega)
      · rintro ⟨hlen, hall⟩
        exact ⟨hall 0 (by omega) (by omega), hlen,
          fun i h h' => hall (i + 1) (by omega) (by omega)⟩

theorem keysWithin_iff (xs ys : List Value) : keysWithin isUnion xs ys = true ↔
    ∀ x ∈ xs, ∃ y ∈ ys, sameKey isUnion x y = true := by
  induction xs with
  | nil => simp [keysWithin]
  | cons x xs ih => simp [keysWithin, ih]

theorem entriesWithin_iff (kvs kvs' : List (Value × Value)) :
    entriesWithin isUnion kvs kvs' = true ↔ ∀ e ∈ kvs, ∃ e' ∈ kvs',
      sameKey isUnion e.1 e'.1 = true ∧ sameKey isUnion e.2 e'.2 = true := by
  induction kvs with
  | nil => simp [entriesWithin]
  | cons e kvs ih =>
    obtain ⟨k, v⟩ := e
    simp only [entriesWithin, Bool.and_eq_true, List.any_eq_true, ih, List.forall_mem_cons]

theorem setNew_of_pairwise {ys : List Value}
    (h : ys.Pairwise fun a b => sameKey isUnion a b = false) : setNew isUnion ys = ys := by
  have hfold : ∀ (rest acc : List Value),
      (acc ++ rest).Pairwise (fun a b => sameKey isUnion a b = false) →
      rest.foldl (setAdd isUnion) acc = acc ++ rest := by
    intro rest
    induction rest with
    | nil => intro acc _; simp
    | cons x rest ih =>
      intro acc hp
      have hx : ∀ y ∈ acc, sameKey isUnion y x = false := fun y hy =>
        (List.pairwise_append.mp hp).2.2 y hy x (by simp)
      have hadd : setAdd isUnion acc x = acc ++ [x] := by
        rw [setAdd, if_neg]
        simpa using hx
      rw [List.foldl_cons, hadd, ih (acc ++ [x]) (by simpa using hp)]
      simp
  simpa [setNew] using hfold ys [] h

theorem hashAset_of_fresh {kvs : List (Value × Value)} {k v : Value}
    (h : ∀ e ∈ kvs, sameKey isUnion e.1 k = false) :
    hashAset isUnion kvs k v = kvs ++ [(k, v)] := by
  induction kvs with
  | nil => rfl
  | cons e kvs ih =>
    obtain ⟨he, hkvs⟩ := List.forall_mem_cons.mp h
    obtain ⟨k', v'⟩ := e
    have hk : ¬ sameKey isUnion k' k = true := by simpa using he
    rw [hashAset, if_neg hk, ih hkvs, List.cons_append]

theorem hashNew_of_pairwise {kvs : List (Value × Value)}
    (h : kvs.Pairwise fun a b => sameKey isUnion a.1 b.1 = false) :
    kvs.foldl (fun h e => hashAset isUnion h e.1 e.2) [] = kvs := by
  have hfold : ∀ (rest acc : List (Value × Value)),
      (acc ++ rest).Pairwise (fun a b => sameKey isUnion a.1 b.1 = false) →
      rest.foldl (fun h e => hashAset isUnion h e.1 e.2) acc = acc ++ rest := by
    intro rest
    induction rest with
    | nil => intro acc _; simp
    | cons x rest ih =>
      intro acc hp
      have hx : ∀ y ∈ acc, sameKey isUnion y.1 x.1 = false := fun y hy =>
        (List.pairwise_append.mp hp).2.2 y hy x (by simp)
      rw [List.foldl_cons, hashAset_of_fresh isUnion hx, ih (acc ++ [x]) (by simpa using hp)]
      simp
  simpa using hfold kvs [] h

mutual
/-- The objects that a comparison of keys compares by identity. -/
def visibleOids : Value → List ℕ
  | .ary xs | .set xs => elemOids xs
  | .hash kvs => entryOids kvs
  | .obj o k _ iv => if isUnion k then ivarOids iv else [o]
  | _ => []

def elemOids : List Value → List ℕ
  | [] => []
  | x :: xs => visibleOids x ++ elemOids xs

def entryOids : List (Value × Value) → List ℕ
  | [] => []
  | (k, v) :: kvs => (visibleOids k ++ visibleOids v) ++ entryOids kvs

def ivarOids : List (ID × Value) → List ℕ
  | [] => []
  | (_, v) :: rest => visibleOids v ++ ivarOids rest
end

theorem elemOids_eq (xs : List Value) : elemOids isUnion xs = xs.flatMap (visibleOids isUnion) := by
  induction xs with
  | nil => rfl
  | cons x xs ih => rw [elemOids, ih, List.flatMap_cons]

theorem entryOids_eq (kvs : List (Value × Value)) : entryOids isUnion kvs =
    kvs.flatMap fun e => visibleOids isUnion e.1 ++ visibleOids isUnion e.2 := by
  induction kvs with
  | nil => rfl
  | cons e kvs ih =>
    obtain ⟨k, v⟩ := e
    rw [entryOids, ih, List.flatMap_cons]

theorem ivarOids_eq (iv : List (ID × Value)) :
    ivarOids isUnion iv = iv.flatMap fun e => visibleOids isUnion e.2 := by
  induction iv with
  | nil => rfl
  | cons e iv ih =>
    obtain ⟨n, v⟩ := e
    rw [ivarOids, ih, List.flatMap_cons]

/-- No object is visible in both. -/
def Apart (v w : Value) : Prop :=
  ∀ o ∈ visibleOids isUnion v, o ∉ visibleOids isUnion w

theorem Apart.elem {xs ys : List Value} {v w : Value}
    (h : ∀ o ∈ elemOids isUnion xs, o ∉ elemOids isUnion ys) (hv : v ∈ xs) (hw : w ∈ ys) :
    Apart isUnion v w := by
  intro o ho ho'
  rw [elemOids_eq, elemOids_eq] at h
  exact h o (List.mem_flatMap.mpr ⟨v, hv, ho⟩) (List.mem_flatMap.mpr ⟨w, hw, ho'⟩)

theorem Apart.entry {kvs kvs' : List (Value × Value)} {e e' : Value × Value}
    (h : ∀ o ∈ entryOids isUnion kvs, o ∉ entryOids isUnion kvs') (he : e ∈ kvs) (he' : e' ∈ kvs') :
    Apart isUnion e.1 e'.1 ∧ Apart isUnion e.2 e'.2 := by
  rw [entryOids_eq, entryOids_eq] at h
  have hall : ∀ o, o ∈ visibleOids isUnion e.1 ++ visibleOids isUnion e.2 →
      o ∉ visibleOids isUnion e'.1 ++ visibleOids isUnion e'.2 := fun o ho ho' =>
    h o (List.mem_flatMap.mpr ⟨e, he, ho⟩) (List.mem_flatMap.mpr ⟨e', he', ho'⟩)
  constructor
  · exact fun o ho ho' => hall o (List.mem_append_left _ ho) (List.mem_append_left _ ho')
  · exact fun o ho ho' => hall o (List.mem_append_right _ ho) (List.mem_append_right _ ho')

theorem Apart.ivar {iv iv' : List (ID × Value)} {name : ID}
    (h : ∀ o ∈ ivarOids isUnion iv, o ∉ ivarOids isUnion iv') (hv : ivarGet iv name ≠ .nil)
    (hw : ivarGet iv' name ≠ .nil) : Apart isUnion (ivarGet iv name) (ivarGet iv' name) := by
  intro o ho ho'
  rw [ivarOids_eq, ivarOids_eq] at h
  exact h o (List.mem_flatMap.mpr ⟨_, ivarGet_mem hv, ho⟩)
    (List.mem_flatMap.mpr ⟨_, ivarGet_mem hw, ho'⟩)

end Keys

/-- A definition with its classes under other names. -/
def renameInfo (ρ : VALUE → VALUE) : FieldInfo → FieldInfo
  | ⟨t, k, iv, sy, opt, bin, none, none⟩ => ⟨t, ρ k, iv, sy, opt, bin, none, none⟩
  | ⟨t, k, iv, sy, opt, bin, some e, none⟩ =>
    ⟨t, ρ k, iv, sy, opt, bin, some (renameInfo ρ e), none⟩
  | ⟨t, k, iv, sy, opt, bin, none, some key⟩ =>
    ⟨t, ρ k, iv, sy, opt, bin, none, some (renameInfo ρ key)⟩
  | ⟨t, k, iv, sy, opt, bin, some e, some key⟩ =>
    ⟨t, ρ k, iv, sy, opt, bin, some (renameInfo ρ e), some (renameInfo ρ key)⟩

section Rename
variable (ρ : VALUE → VALUE) (fi : FieldInfo)

theorem renameInfo_eq : renameInfo ρ fi =
    ⟨fi.ftype, ρ fi.klass, fi.ivarName, fi.symName, fi.isOptional, fi.isBinaryString,
      fi.elementType.map (renameInfo ρ), fi.keyType.map (renameInfo ρ)⟩ := by
  obtain ⟨t, k, iv, sy, opt, bin, e, key⟩ := fi
  cases e <;> cases key <;> rfl

@[simp] theorem renameInfo_ftype : (renameInfo ρ fi).ftype = fi.ftype := by rw [renameInfo_eq]

@[simp] theorem renameInfo_klass : (renameInfo ρ fi).klass = ρ fi.klass := by rw [renameInfo_eq]

@[simp] theorem renameInfo_ivarName : (renameInfo ρ fi).ivarName = fi.ivarName := by
  rw [renameInfo_eq]

@[simp] theorem renameInfo_symName : (renameInfo ρ fi).symName = fi.symName := by
  rw [renameInfo_eq]

@[simp] theorem renameInfo_isBinaryString :
    (renameInfo ρ fi).isBinaryString = fi.isBinaryString := by rw [renameInfo_eq]

@[simp] theorem renameInfo_elementType :
    (renameInfo ρ fi).elementType = fi.elementType.map (renameInfo ρ) := by rw [renameInfo_eq]

@[simp] theorem renameInfo_keyType :
    (renameInfo ρ fi).keyType = fi.keyType.map (renameInfo ρ) := by rw [renameInfo_eq]

theorem renameInfo_id : renameInfo id fi = fi := by
  fun_induction renameInfo id fi with
  | case1 => rfl
  | case2 t k iv sy opt bin e ih => rw [ih]; rfl
  | case3 t k iv sy opt bin key ih => rw [ih]; rfl
  | case4 t k iv sy opt bin e key ihe ihk => rw [ihe, ihk]; rfl

end Rename

/-- `new` has every class of `old`, with at least its fields; a union has no others. -/
structure Extends (old new : Schema) (ρ : VALUE → VALUE) : Prop where
  isUnion : ∀ klass, old.Cached klass → new.isUnion (ρ klass) = old.isUnion klass
  table : ∀ klass fields, old.fieldInfoMap klass = some fields →
    ∃ fields', new.fieldInfoMap (ρ klass) = some fields' ∧
      (∀ e ∈ fields.entries, (e.1, renameInfo ρ e.2) ∈ fields'.entries) ∧
      (old.isUnion klass = true → ∀ e' ∈ fields'.entries,
        ∃ e ∈ fields.entries, e' = (e.1, renameInfo ρ e.2))

section Compared
variable (sch : Schema)

/-- The methods through which Ruby compares an object of a struct or a union class as a key. -/
def keyMethods (isUnion : Bool) : List ID :=
  if isUnion then ["hash", "get_value", "get_set_field", "name_to_accessors", "send",
    "instance_variable_get", "struct_fields"]
  else ["hash"]

/-- A definition of a field, or inside one. -/
inductive Occurs : FieldInfo → Prop
  | field {klass : VALUE} {fields : FieldInfoMap} {e : Int16 × FieldInfo}
      (table : sch.fieldInfoMap klass = some fields) (mem : e ∈ fields.entries) : Occurs e.2
  | element {fi e : FieldInfo} (h : Occurs fi) (element : fi.elementType = some e) : Occurs e
  | key {fi k : FieldInfo} (h : Occurs fi) (keyType : fi.keyType = some k) : Occurs k

/-- A definition of what is compared as a key: an element of a Set, a key of a Hash, or a value
    inside one. -/
inductive Compared : FieldInfo → Prop
  | setElement {fi e : FieldInfo} (h : Occurs sch fi) (type : fi.ftype = .SET)
      (element : fi.elementType = some e) : Compared e
  | mapKey {fi k : FieldInfo} (h : Occurs sch fi) (keyType : fi.keyType = some k) : Compared k
  | element {fi e : FieldInfo} (h : Compared fi) (element : fi.elementType = some e) : Compared e
  | key {fi k : FieldInfo} (h : Compared fi) (keyType : fi.keyType = some k) : Compared k
  | member {fi : FieldInfo} {fields : FieldInfoMap} {e : Int16 × FieldInfo} (h : Compared fi)
      (table : sch.fieldInfoMap fi.klass = some fields) (isUnion : sch.isUnion fi.klass = true)
      (mem : e ∈ fields.entries) : Compared e.2

/-- What is compared as a key has no field that stands before the methods it is compared by. -/
def PlainKeys : Prop :=
  ∀ fi, Compared sch fi → ∀ c ∈ sch.findClass fi.klass, ∀ m ∈ keyMethods c.inheritsUnion,
    m ∉ c.fieldNames

theorem not_mem_fieldNames {sch : Schema} (h : Unshadowed sch) {k : VALUE} {c : RubyClass}
    (hc : c ∈ sch.findClass k) {m : ID} (hm : m ∈ keyMethods c.inheritsUnion) :
    m ∉ c.fieldNames := by
  refine h k c hc m ?_
  unfold keyMethods at hm
  split at hm
  · revert m
    decide
  · revert m
    decide

theorem plainKeys_of_unshadowed {sch : Schema} (h : Unshadowed sch) : PlainKeys sch :=
  fun _ _ _ hc _ hm => not_mem_fieldNames h hc hm

/-- A cached class of a schema whose Sets and Hashes compare their objects as Ruby does. -/
structure PlainClass (klass : VALUE) : Prop where
  cached : sch.Cached klass
  keys : PlainKeys sch

end Compared

theorem Extends.refl (sch : Schema) : Extends sch sch id where
  isUnion _ _ := rfl
  table klass fields h :=
    ⟨fields, h, fun e he => by rwa [renameInfo_id], fun _ e he => ⟨e, he, by rw [renameInfo_id]⟩⟩

/-- What the defaults of the class give a new object. -/
def newIvar (sch : Schema) (klass : VALUE) (name : ID) : Value :=
  ivarGet (defaultIvars (sch.defaultValues klass)) name

/-- What `klass.new` does give it. -/
def madeIvar (sch : Schema) (klass : VALUE) (name : ID) : Value :=
  ivarGet (newIvars sch klass) name

/-- The first value, of a schema that extends `sch`, was written for a field and
    the second is what `sch` reads of it: containers in the same order, the fields
    `sch` has, and what a new object holds where a field is nil. -/
inductive Agrees (sch : Schema) (start : VALUE → ID → Value) (ρ : VALUE → VALUE) :
    FieldInfo → Value → Value → Prop
  | int (fi : FieldInfo) (n : ℤ) : Agrees sch start ρ fi (.int n) (.int n)
  | bool (fi : FieldInfo) (b : Bool) : Agrees sch start ρ fi (.bool b) (.bool b)
  | double (fi : FieldInfo) (bits : UInt64) : Agrees sch start ρ fi (.float bits) (.float bits)
  | string (fi : FieldInfo) (enc : Encoding) (bytes : List UInt8) :
      Agrees sch start ρ fi (.str enc bytes) (.str enc bytes)
  | list (fi e : FieldInfo) (xs ys : List Value) (element : fi.elementType = some e)
      (size : ys.length = xs.length)
      (elems : ∀ p ∈ xs.zip ys, Agrees sch start ρ e p.1 p.2) :
      Agrees sch start ρ fi (.ary xs) (.ary ys)
  | set (fi e : FieldInfo) (xs ys : List Value) (element : fi.elementType = some e)
      (size : ys.length = xs.length)
      (elems : ∀ p ∈ xs.zip ys, Agrees sch start ρ e p.1 p.2) :
      Agrees sch start ρ fi (.set xs) (.set ys)
  | map (fi k e : FieldInfo) (kvs kvs' : List (Value × Value)) (key : fi.keyType = some k)
      (element : fi.elementType = some e) (size : kvs'.length = kvs.length)
      (keys : ∀ p ∈ kvs.zip kvs', Agrees sch start ρ k p.1.1 p.2.1)
      (values : ∀ p ∈ kvs.zip kvs', Agrees sch start ρ e p.1.2 p.2.2) :
      Agrees sch start ρ fi (.hash kvs) (.hash kvs')
  | struct (fi : FieldInfo) (oid oid' : ℕ) (eigen : Bool) (ivars ivars' : List (ID × Value))
      (fields : FieldInfoMap) (table : sch.fieldInfoMap fi.klass = some fields)
      (isStruct : sch.isUnion fi.klass = false)
      (held : ∀ e ∈ fields.entries, ivarGet ivars e.2.ivarName ≠ .nil →
        Agrees sch start ρ e.2 (ivarGet ivars e.2.ivarName) (ivarGet ivars' e.2.ivarName))
      (rest : ∀ name, (∀ e ∈ fields.entries, e.2.ivarName = name → ivarGet ivars name = .nil) →
        ivarGet ivars' name = start fi.klass name) :
      Agrees sch start ρ fi (.obj oid (ρ fi.klass) eigen ivars) (.obj oid' fi.klass false ivars')
  | unset (fi : FieldInfo) (oid oid' : ℕ) (eigen : Bool) (ivars ivars' : List (ID × Value))
      (fields : FieldInfoMap) (table : sch.fieldInfoMap fi.klass = some fields)
      (isUnion : sch.isUnion fi.klass = true) (tag : setField ivars = none)
      (rest : ∀ name, ivarGet ivars' name = .nil) :
      Agrees sch start ρ fi (.obj oid (ρ fi.klass) eigen ivars) (.obj oid' fi.klass false ivars')
  | union (fi : FieldInfo) (oid oid' : ℕ) (eigen : Bool) (ivars ivars' : List (ID × Value))
      (fields : FieldInfoMap) (e : Int16 × FieldInfo)
      (table : sch.fieldInfoMap fi.klass = some fields) (isUnion : sch.isUnion fi.klass = true)
      (member : e ∈ fields.entries) (tag : setField ivars = some e.2.symName)
      (tag' : setField ivars' = some e.2.symName)
      (held : Agrees sch start ρ e.2 (ivarGet ivars e.2.ivarName) (ivarGet ivars' e.2.ivarName))
      (rest : ∀ name, name ≠ "@setfield" → name ≠ e.2.ivarName → ivarGet ivars' name = .nil) :
      Agrees sch start ρ fi (.obj oid (ρ fi.klass) eigen ivars) (.obj oid' fi.klass false ivars')

/-- The first value was written for the first definition over `w`, the second is what `r`
    reads of it for the second one: containers in the same order, fields through their
    ids, and what a new object holds elsewhere. -/
inductive Carries (w r : Schema) (start : VALUE → ID → Value) :
    FieldInfo → FieldInfo → Value → Value → Prop
  | int (fi fi' : FieldInfo) (n : ℤ) : Carries w r start fi fi' (.int n) (.int n)
  | bool (fi fi' : FieldInfo) (b : Bool) : Carries w r start fi fi' (.bool b) (.bool b)
  | double (fi fi' : FieldInfo) (bits : UInt64) :
      Carries w r start fi fi' (.float bits) (.float bits)
  | string (fi fi' : FieldInfo) (enc : Encoding) (bytes : List UInt8) :
      Carries w r start fi fi' (.str enc bytes) (.str enc bytes)
  | list (fi fi' e e' : FieldInfo) (xs ys : List Value) (element : fi.elementType = some e)
      (element' : fi'.elementType = some e') (size : ys.length = xs.length)
      (elems : ∀ p ∈ xs.zip ys, Carries w r start e e' p.1 p.2) :
      Carries w r start fi fi' (.ary xs) (.ary ys)
  | set (fi fi' e e' : FieldInfo) (xs ys : List Value) (element : fi.elementType = some e)
      (element' : fi'.elementType = some e') (size : ys.length = xs.length)
      (elems : ∀ p ∈ xs.zip ys, Carries w r start e e' p.1 p.2) :
      Carries w r start fi fi' (.set xs) (.set ys)
  | map (fi fi' k k' e e' : FieldInfo) (kvs kvs' : List (Value × Value))
      (key : fi.keyType = some k) (key' : fi'.keyType = some k') (element : fi.elementType = some e)
      (element' : fi'.elementType = some e') (size : kvs'.length = kvs.length)
      (keys : ∀ p ∈ kvs.zip kvs', Carries w r start k k' p.1.1 p.2.1)
      (values : ∀ p ∈ kvs.zip kvs', Carries w r start e e' p.1.2 p.2.2) :
      Carries w r start fi fi' (.hash kvs) (.hash kvs')
  | struct (fi fi' : FieldInfo) (oid oid' : ℕ) (eigen : Bool) (ivars ivars' : List (ID × Value))
      (fields fields' : FieldInfoMap) (table : w.fieldInfoMap fi.klass = some fields)
      (table' : r.fieldInfoMap fi'.klass = some fields') (isStruct : r.isUnion fi'.klass = false)
      (held : ∀ e ∈ fields.entries, ∀ fd', fields'.find? e.1 = some fd' →
        ivarGet ivars e.2.ivarName ≠ .nil →
        Carries w r start e.2 fd' (ivarGet ivars e.2.ivarName) (ivarGet ivars' fd'.ivarName))
      (rest : ∀ name, (∀ e ∈ fields.entries, ∀ fd', fields'.find? e.1 = some fd' →
        fd'.ivarName = name → ivarGet ivars e.2.ivarName = .nil) →
        ivarGet ivars' name = start fi'.klass name) :
      Carries w r start fi fi' (.obj oid fi.klass eigen ivars) (.obj oid' fi'.klass false ivars')
  | unset (fi fi' : FieldInfo) (oid oid' : ℕ) (eigen : Bool) (ivars ivars' : List (ID × Value))
      (isUnion : w.isUnion fi.klass = true) (isUnion' : r.isUnion fi'.klass = true)
      (tag : setField ivars = none) (rest : ∀ name, ivarGet ivars' name = .nil) :
      Carries w r start fi fi' (.obj oid fi.klass eigen ivars) (.obj oid' fi'.klass false ivars')
  | union (fi fi' : FieldInfo) (oid oid' : ℕ) (eigen : Bool) (ivars ivars' : List (ID × Value))
      (fields fields' : FieldInfoMap) (e : Int16 × FieldInfo) (fd' : FieldInfo)
      (table : w.fieldInfoMap fi.klass = some fields)
      (table' : r.fieldInfoMap fi'.klass = some fields')
      (isUnion : w.isUnion fi.klass = true) (isUnion' : r.isUnion fi'.klass = true)
      (member : e ∈ fields.entries) (member' : fields'.find? e.1 = some fd')
      (tag : setField ivars = some e.2.symName) (tag' : setField ivars' = some fd'.symName)
      (held : Carries w r start e.2 fd' (ivarGet ivars e.2.ivarName) (ivarGet ivars' fd'.ivarName))
      (rest : ∀ name, name ≠ "@setfield" → name ≠ fd'.ivarName → ivarGet ivars' name = .nil) :
      Carries w r start fi fi' (.obj oid fi.klass eigen ivars) (.obj oid' fi'.klass false ivars')

theorem Carries.ne_nil {w r : Schema} {start : VALUE → ID → Value} {fi fi' : FieldInfo}
    {v y : Value} (h : Carries w r start fi fi' v y) : v ≠ .nil ∧ y ≠ .nil := by
  cases h <;> simp

theorem Agrees.ne_nil {sch : Schema} {start : VALUE → ID → Value} {ρ : VALUE → VALUE}
    {fi : FieldInfo} {v y : Value} (h : Agrees sch start ρ fi v y) : v ≠ .nil ∧ y ≠ .nil := by
  cases h <;> simp

theorem visibleOids_struct {isUnion : VALUE → Bool} {klass : VALUE} (h : isUnion klass = false)
    (oid : ℕ) (eigen : Bool) (ivars : List (ID × Value)) :
    visibleOids isUnion (.obj oid klass eigen ivars) = [oid] := by
  simp [visibleOids, h]

theorem visibleOids_union {isUnion : VALUE → Bool} {klass : VALUE} (h : isUnion klass = true)
    (oid : ℕ) (eigen : Bool) (ivars : List (ID × Value)) :
    visibleOids isUnion (.obj oid klass eigen ivars) = ivarOids isUnion ivars := by
  simp [visibleOids, h]

theorem sameKey_union {isUnion : VALUE → Bool} {klass : VALUE} (h : isUnion klass = true)
    (o o' : ℕ) (g g' : Bool) (iv iv' : List (ID × Value)) :
    sameKey isUnion (.obj o klass g iv) (.obj o' klass g' iv') = true ↔
      setField iv = setField iv' ∧ ∀ f, setField iv = some f →
        sameKey isUnion (ivarGet iv ("@" ++ f)) (ivarGet iv' ("@" ++ f)) = true := by
  cases ht : setField iv with
  | none => simp [sameKey, h, ht]
  | some f => simp [sameKey, h, ht, sameKeyAt_eq]

section SameKey
variable {w r : Schema} {start : VALUE → ID → Value}

/-- A value that is read like another one, and is the same key, was the same key before. -/
def Reflects (w r : Schema) (R : Value → Value → Prop) (v y : Value) : Prop :=
  ∀ {v' y' : Value}, R v' y' → Apart r.isUnion y y' → sameKey r.isUnion y y' = true →
    sameKey w.isUnion v v' = true

theorem sameKeys_reflects {R : Value → Value → Prop} {xs ys xs' ys' : List Value}
    (size : ys.length = xs.length) (size' : ys'.length = xs'.length)
    (ih : ∀ p ∈ xs.zip ys, Reflects w r R p.1 p.2) (elems' : ∀ p ∈ xs'.zip ys', R p.1 p.2)
    (apart : Apart r.isUnion (.ary ys) (.ary ys')) (same : sameKeys r.isUnion ys ys' = true) :
    sameKeys w.isUnion xs xs' = true := by
  rw [sameKeys_iff] at same ⊢
  obtain ⟨hlen, hall⟩ := same
  refine ⟨by omega, fun i hi hi' => ?_⟩
  have hy : i < ys.length := by omega
  have hy' : i < ys'.length := by omega
  exact ih _ (getElem_mem_zip xs ys i hi hy) (elems' _ (getElem_mem_zip xs' ys' i hi' hy'))
    (Apart.elem _ apart (List.getElem_mem hy) (List.getElem_mem hy')) (hall i hy hy')

theorem keysWithin_reflects {R : Value → Value → Prop} {xs ys xs' ys' : List Value}
    (size : ys.length = xs.length) (size' : ys'.length = xs'.length)
    (ih : ∀ p ∈ xs.zip ys, Reflects w r R p.1 p.2) (elems' : ∀ p ∈ xs'.zip ys', R p.1 p.2)
    (apart : Apart r.isUnion (.set ys) (.set ys')) (same : keysWithin r.isUnion ys ys' = true) :
    keysWithin w.isUnion xs xs' = true := by
  rw [keysWithin_iff] at same ⊢
  intro x hx
  obtain ⟨i, hi, rfl⟩ := List.getElem_of_mem hx
  have hy : i < ys.length := by omega
  obtain ⟨y', hy', hsame⟩ := same ys[i] (List.getElem_mem hy)
  obtain ⟨j, hj, rfl⟩ := List.getElem_of_mem hy'
  have hx' : j < xs'.length := by omega
  refine ⟨xs'[j], List.getElem_mem hx', ?_⟩
  exact ih _ (getElem_mem_zip xs ys i hi hy) (elems' _ (getElem_mem_zip xs' ys' j hx' hj))
    (Apart.elem _ apart (List.getElem_mem hy) hy') hsame

theorem entriesWithin_reflects {R S : Value → Value → Prop} {kvs ws kvs' ws' : List (Value × Value)}
    (size : ws.length = kvs.length) (size' : ws'.length = kvs'.length)
    (ihk : ∀ p ∈ kvs.zip ws, Reflects w r R p.1.1 p.2.1)
    (ihv : ∀ p ∈ kvs.zip ws, Reflects w r S p.1.2 p.2.2)
    (keys' : ∀ p ∈ kvs'.zip ws', R p.1.1 p.2.1) (values' : ∀ p ∈ kvs'.zip ws', S p.1.2 p.2.2)
    (apart : Apart r.isUnion (.hash ws) (.hash ws'))
    (same : entriesWithin r.isUnion ws ws' = true) : entriesWithin w.isUnion kvs kvs' = true := by
  rw [entriesWithin_iff] at same ⊢
  intro x hx
  obtain ⟨i, hi, rfl⟩ := List.getElem_of_mem hx
  have hy : i < ws.length := by omega
  obtain ⟨w', hw', hkey, hval⟩ := same ws[i] (List.getElem_mem hy)
  obtain ⟨j, hj, rfl⟩ := List.getElem_of_mem hw'
  have hx' : j < kvs'.length := by omega
  obtain ⟨hapk, hapv⟩ := Apart.entry _ apart (List.getElem_mem hy) hw'
  have hm := getElem_mem_zip kvs ws i hi hy
  have hm' := getElem_mem_zip kvs' ws' j hx' hj
  exact ⟨kvs'[j], List.getElem_mem hx', ihk _ hm (keys' _ hm') hapk hkey,
    ihv _ hm (values' _ hm') hapv hval⟩

theorem sameKey_struct {isUnion : VALUE → Bool} {klass : VALUE} (h : isUnion klass = false)
    {o o' : ℕ} {g g' : Bool} {iv iv' : List (ID × Value)}
    (apart : Apart isUnion (.obj o klass g iv) (.obj o' klass g' iv')) :
    sameKey isUnion (.obj o klass g iv) (.obj o' klass g' iv') = false := by
  rw [Apart, visibleOids_struct h, visibleOids_struct h] at apart
  simpa [sameKey, h] using apart

theorem entry_of_member {klass' : VALUE} {fields fields' : FieldInfoMap}
    (table' : r.fieldInfoMap klass' = some fields') {e e₁ : Int16 × FieldInfo}
    {fd' fd₁' : FieldInfo} (member : e ∈ fields.entries) (member₁ : e₁ ∈ fields.entries)
    (member' : fields'.find? e.1 = some fd') (member₁' : fields'.find? e₁.1 = some fd₁')
    (hname : fd'.symName = fd₁'.symName) : e = e₁ ∧ fd' = fd₁' := by
  have hm := (fields'.find?_eq_some_iff e.1 fd').mp member'
  have hm₁ := (fields'.find?_eq_some_iff e₁.1 fd₁').mp member₁'
  have hentry : (e.1, fd') = (e₁.1, fd₁') := by
    apply r.entry_unique table' hm hm₁
    rw [r.ivarName klass' fields' table' _ hm, r.ivarName klass' fields' table' _ hm₁]
    exact congrArg ("@" ++ ·) hname
  obtain ⟨hid, rfl⟩ := Prod.mk.inj hentry
  have hfind := (fields.find?_eq_some_iff e.1 e.2).mpr member
  have hfind₁ := (fields.find?_eq_some_iff e₁.1 e₁.2).mpr member₁
  exact ⟨Prod.ext hid (Option.some.inj (hfind.symm.trans (hid ▸ hfind₁))), rfl⟩

/-- What is read keeps apart what was apart before: objects made for two values
    have their own identities, all other keys are compared by content. -/
theorem sameKey_of_carries {fi fi' : FieldInfo} {v y : Value} (h : Carries w r start fi fi' v y) :
    Reflects w r (Carries w r start fi fi') v y := by
  intro v' y' h' apart same
  induction h generalizing v' y' with
  | int fi fi' n => cases h' <;> simp [sameKey] at same ⊢; exact same
  | bool fi fi' b => cases h' <;> simp [sameKey] at same ⊢; exact same
  | double fi fi' bits => cases h' <;> simp [sameKey] at same ⊢; exact same
  | string fi fi' enc bytes => cases h' <;> simp [sameKey] at same ⊢; exact same
  | list fi fi' e e' xs ys element element' size elems ih =>
    cases h' with
    | list _ _ e₁ e₁' xs' ys' element₁ element₁' size' elems' =>
      obtain rfl : e = e₁ := Option.some.inj (element.symm.trans element₁)
      obtain rfl : e' = e₁' := Option.some.inj (element'.symm.trans element₁')
      simp only [sameKey] at same ⊢
      exact sameKeys_reflects size size' ih elems' apart same
    | _ => simp [sameKey] at same
  | set fi fi' e e' xs ys element element' size elems ih =>
    cases h' with
    | set _ _ e₁ e₁' xs' ys' element₁ element₁' size' elems' =>
      obtain rfl : e = e₁ := Option.some.inj (element.symm.trans element₁)
      obtain rfl : e' = e₁' := Option.some.inj (element'.symm.trans element₁')
      simp only [sameKey, Bool.and_eq_true, beq_iff_eq] at same ⊢
      exact ⟨by omega, keysWithin_reflects size size' ih elems' apart same.2⟩
    | _ => simp [sameKey] at same
  | map fi fi' k k' e e' kvs ws key key' element element' size keys values ihk ihv =>
    cases h' with
    | map _ _ k₁ k₁' e₁ e₁' kvs' ws' key₁ key₁' element₁ element₁' size' keys' values' =>
      obtain rfl : e = e₁ := Option.some.inj (element.symm.trans element₁)
      obtain rfl : e' = e₁' := Option.some.inj (element'.symm.trans element₁')
      obtain rfl : k = k₁ := Option.some.inj (key.symm.trans key₁)
      obtain rfl : k' = k₁' := Option.some.inj (key'.symm.trans key₁')
      simp only [sameKey, Bool.and_eq_true, beq_iff_eq] at same ⊢
      exact ⟨by omega, entriesWithin_reflects size size' ihk ihv keys' values' apart same.2⟩
    | _ => simp [sameKey] at same
  | struct fi fi' oid oid' eigen ivars ivars' fields fields' table table' isStruct held rest ih =>
    cases h' with
    | struct => simp [sameKey_struct isStruct apart] at same
    | unset | union => simp_all
    | _ => simp [sameKey] at same
  | unset fi fi' oid oid' eigen ivars ivars' isUnion isUnion' tag rest =>
    have hnone : setField ivars' = none := by rw [setField, rest]
    cases h' with
    | struct => simp_all
    | unset _ _ _ _ _ _ _ _ _ tag' _ =>
      rw [sameKey_union isUnion]
      simp [tag, tag']
    | union _ _ _ _ _ _ _ _ _ _ _ _ _ _ _ _ _ _ tag'' =>
      rw [sameKey_union isUnion', hnone, tag''] at same
      simp at same
    | _ => simp [sameKey] at same
  | union fi fi' oid oid' eigen ivars ivars' fields fields' e fd' table table' isUnion isUnion'
      member member' tag tag' held rest ih =>
    cases h' with
    | struct => simp_all
    | unset _ _ _ _ _ _ iv' _ _ _ rest' =>
      have hnone : setField iv' = none := by rw [setField, rest']
      rw [sameKey_union isUnion', hnone, tag'] at same
      simp at same
    | union _ _ _ _ _ iv iv' fields₁ fields₁' e₁ fd₁' table₁ table₁' _ _ member₁ member₁' tag₁ tag₁'
        held₁ _ =>
      obtain rfl : fields = fields₁ := Option.some.inj (table.symm.trans table₁)
      obtain rfl : fields' = fields₁' := Option.some.inj (table'.symm.trans table₁')
      rw [sameKey_union isUnion', tag', tag₁'] at same
      obtain ⟨hname, hval⟩ := same
      have hivar' := r.ivarName fi'.klass fields' table' _
        ((fields'.find?_eq_some_iff e.1 fd').mp member')
      obtain ⟨rfl, rfl⟩ := entry_of_member table' member member₁ member' member₁'
        (Option.some.inj hname)
      have hivar := w.ivarName fi.klass fields table e member
      rw [sameKey_union isUnion, tag, tag₁]
      refine ⟨rfl, fun f hf => ?_⟩
      obtain rfl : e.2.symName = f := Option.some.inj hf
      have hsame := hval _ rfl
      dsimp only at hivar'
      rw [← hivar'] at hsame
      rw [← hivar]
      rw [Apart, visibleOids_union isUnion', visibleOids_union isUnion'] at apart
      exact ih held₁ (Apart.ivar _ apart held.ne_nil.2 held₁.ne_nil.2) hsame
    | _ => simp [sameKey] at same

theorem pairwise_apart {γ δ : Type} {fi fi' : FieldInfo} {xs : List γ} {ys : List δ}
    (key : γ → Value) (key' : δ → Value) (size : ys.length = xs.length)
    (carries : ∀ p ∈ xs.zip ys, Carries w r start fi fi' (key p.1) (key' p.2))
    (apart : ys.Pairwise fun a b => Apart r.isUnion (key' a) (key' b))
    (distinct : xs.Pairwise fun a b => sameKey w.isUnion (key a) (key b) = false) :
    ys.Pairwise fun a b => sameKey r.isUnion (key' a) (key' b) = false := by
  rw [List.pairwise_iff_getElem] at apart distinct ⊢
  intro i j hi hj hij
  have hi' : i < xs.length := by omega
  have hj' : j < xs.length := by omega
  rw [Bool.eq_false_iff]
  intro hsame
  have h := sameKey_of_carries (carries _ (getElem_mem_zip xs ys i hi' hi))
    (carries _ (getElem_mem_zip xs ys j hj' hj)) (apart i j hi hj hij) hsame
  rw [distinct i j hi' hj' hij] at h
  simp at h

end SameKey

section Extends
variable {old new : Schema} {start : VALUE → ID → Value} {ρ : VALUE → VALUE}

theorem known_eq (hext : Extends old new ρ) {klass : VALUE} {fields fields' : FieldInfoMap}
    (hf : old.fieldInfoMap klass = some fields) (hf' : new.fieldInfoMap (ρ klass) = some fields')
    {e : Int16 × FieldInfo} (he : e ∈ fields'.entries) {fi : FieldInfo}
    (hfi : fields.find? e.1 = some fi) : e.2 = renameInfo ρ fi := by
  obtain ⟨fields'', hf'', hall, _⟩ := hext.table klass fields hf
  obtain rfl : fields' = fields'' := Option.some.inj (hf'.symm.trans hf'')
  have hm := hall (e.1, fi) ((fields.find?_eq_some_iff e.1 fi).mp hfi)
  have h1 := (fields'.find?_eq_some_iff e.1 e.2).mpr he
  have h2 := (fields'.find?_eq_some_iff e.1 (renameInfo ρ fi)).mpr hm
  exact Option.some.inj (h1.symm.trans h2)

theorem Agrees.carries (hext : Extends old new ρ) {fi : FieldInfo} {v y : Value}
    (h : Agrees old start ρ fi v y) : Carries new old start (renameInfo ρ fi) fi v y := by
  have elementType : ∀ {fi e : FieldInfo}, fi.elementType = some e →
      (renameInfo ρ fi).elementType = some (renameInfo ρ e) := by
    intro fi e he
    rw [renameInfo_elementType, he]
    rfl
  have keyType : ∀ {fi k : FieldInfo}, fi.keyType = some k →
      (renameInfo ρ fi).keyType = some (renameInfo ρ k) := by
    intro fi k hk
    rw [renameInfo_keyType, hk]
    rfl
  induction h with
  | int fi n => exact .int _ _ n
  | bool fi b => exact .bool _ _ b
  | double fi bits => exact .double _ _ bits
  | string fi enc bytes => exact .string _ _ enc bytes
  | list fi e xs ys element size elems ih =>
    exact .list _ _ _ e xs ys (elementType element) element size ih
  | set fi e xs ys element size elems ih =>
    exact .set _ _ _ e xs ys (elementType element) element size ih
  | map fi k e kvs kvs' key element size keys values ihk ihe =>
    exact .map _ _ _ k _ e kvs kvs' (keyType key) key (elementType element) element size ihk ihe
  | struct fi oid oid' eigen ivars ivars' fields table isStruct held rest ih =>
    obtain ⟨fields', table', hall, -⟩ := hext.table fi.klass fields table
    have hklass : (renameInfo ρ fi).klass = ρ fi.klass := renameInfo_klass ρ fi
    have known : ∀ e ∈ fields'.entries, ∀ fd, fields.find? e.1 = some fd →
        e.2 = renameInfo ρ fd := fun e he fd hfd => known_eq hext table table' he hfd
    rw [← hklass] at table' ⊢
    refine .struct _ _ oid oid' eigen ivars ivars' fields' fields table' table isStruct ?_ ?_
    · intro e he fd hfd hne
      have hmem := (fields.find?_eq_some_iff e.1 fd).mp hfd
      have hfield := known e he fd hfd
      rw [hfield, renameInfo_ivarName] at hne ⊢
      exact ih (e.1, fd) hmem hne
    · intro name hall'
      apply rest name
      intro e he hname
      have hnil := hall' (e.1, renameInfo ρ e.2) (hall e he) e.2
        ((fields.find?_eq_some_iff e.1 e.2).mpr he) hname
      rwa [renameInfo_ivarName, hname] at hnil
  | unset fi oid oid' eigen ivars ivars' fields table isUnion tag rest =>
    have hnew : new.isUnion (ρ fi.klass) = true :=
      (hext.isUnion fi.klass (by simp [Schema.Cached, table])).trans isUnion
    rw [← renameInfo_klass ρ fi] at hnew ⊢
    exact .unset _ _ oid oid' eigen ivars ivars' hnew isUnion tag rest
  | union fi oid oid' eigen ivars ivars' fields e table isUnion member tag tag' held rest ih =>
    obtain ⟨fields', table', hall, -⟩ := hext.table fi.klass fields table
    have hnew : new.isUnion (ρ fi.klass) = true :=
      (hext.isUnion fi.klass (by simp [Schema.Cached, table])).trans isUnion
    have htag : setField ivars = some (renameInfo ρ e.2).symName := by
      rw [renameInfo_symName]
      exact tag
    rw [← renameInfo_klass ρ fi] at hnew table' ⊢
    refine .union _ _ oid oid' eigen ivars ivars' fields' fields (e.1, renameInfo ρ e.2) e.2 table'
      table hnew isUnion (hall e member) ((fields.find?_eq_some_iff e.1 e.2).mpr member) htag tag'
      ?_ rest
    rw [renameInfo_ivarName]
    exact ih

end Extends

section Rebuilt
variable (sch : Schema)

/-- Reading the value makes an object of the class, for one with these instance variables. -/
inductive Rebuilt : FieldInfo → Value → VALUE → List (ID × Value) → Prop
  | self (fi : FieldInfo) (oid : ℕ) (klass : VALUE) (eigen : Bool) (ivars : List (ID × Value))
      (cached : sch.Cached fi.klass) : Rebuilt fi (.obj oid klass eigen ivars) fi.klass ivars
  | list {fi e : FieldInfo} {x : Value} {xs : List Value} {k : VALUE} {iv : List (ID × Value)}
      (element : fi.elementType = some e) (mem : x ∈ xs) (h : Rebuilt e x k iv) :
      Rebuilt fi (.ary xs) k iv
  | set {fi e : FieldInfo} {x : Value} {xs : List Value} {k : VALUE} {iv : List (ID × Value)}
      (element : fi.elementType = some e) (mem : x ∈ xs) (h : Rebuilt e x k iv) :
      Rebuilt fi (.set xs) k iv
  | key {fi key : FieldInfo} {kv : Value × Value} {kvs : List (Value × Value)} {k : VALUE}
      {iv : List (ID × Value)} (keyType : fi.keyType = some key) (mem : kv ∈ kvs)
      (h : Rebuilt key kv.1 k iv) : Rebuilt fi (.hash kvs) k iv
  | value {fi e : FieldInfo} {kv : Value × Value} {kvs : List (Value × Value)} {k : VALUE}
      {iv : List (ID × Value)} (element : fi.elementType = some e) (mem : kv ∈ kvs)
      (h : Rebuilt e kv.2 k iv) : Rebuilt fi (.hash kvs) k iv
  | field {fi : FieldInfo} {oid : ℕ} {klass : VALUE} {eigen : Bool} {ivars : List (ID × Value)}
      {fields : FieldInfoMap} {e : Int16 × FieldInfo} {k : VALUE} {iv : List (ID × Value)}
      (table : sch.fieldInfoMap fi.klass = some fields) (isStruct : sch.isUnion fi.klass = false)
      (mem : e ∈ fields.entries) (held : ivarGet ivars e.2.ivarName ≠ .nil)
      (h : Rebuilt e.2 (ivarGet ivars e.2.ivarName) k iv) :
      Rebuilt fi (.obj oid klass eigen ivars) k iv
  | member {fi : FieldInfo} {oid : ℕ} {klass : VALUE} {eigen : Bool} {ivars : List (ID × Value)}
      {fields : FieldInfoMap} {e : Int16 × FieldInfo} {k : VALUE} {iv : List (ID × Value)}
      (table : sch.fieldInfoMap fi.klass = some fields) (isUnion : sch.isUnion fi.klass = true)
      (mem : e ∈ fields.entries) (tag : setField ivars = some e.2.symName)
      (h : Rebuilt e.2 (ivarGet ivars e.2.ivarName) k iv) :
      Rebuilt fi (.obj oid klass eigen ivars) k iv

/-- Reading the value hashes an object of the class: an element of a Set or a key of a Hash, or
    one inside. `key` says that the value itself is an element or a key. -/
inductive Hashed : Bool → FieldInfo → Value → VALUE → Prop
  | self {fi : FieldInfo} {oid : ℕ} {klass : VALUE} {eigen : Bool} {ivars : List (ID × Value)} :
      Hashed true fi (.obj oid klass eigen ivars) fi.klass
  | list {key : Bool} {fi e : FieldInfo} {x : Value} {xs : List Value} {k : VALUE}
      (element : fi.elementType = some e) (mem : x ∈ xs) (h : Hashed key e x k) :
      Hashed key fi (.ary xs) k
  | set {key : Bool} {fi e : FieldInfo} {x : Value} {xs : List Value} {k : VALUE}
      (element : fi.elementType = some e) (mem : x ∈ xs) (h : Hashed true e x k) :
      Hashed key fi (.set xs) k
  | key {key : Bool} {fi d : FieldInfo} {kv : Value × Value} {kvs : List (Value × Value)}
      {k : VALUE} (keyType : fi.keyType = some d) (mem : kv ∈ kvs) (h : Hashed true d kv.1 k) :
      Hashed key fi (.hash kvs) k
  | value {key : Bool} {fi e : FieldInfo} {kv : Value × Value} {kvs : List (Value × Value)}
      {k : VALUE} (element : fi.elementType = some e) (mem : kv ∈ kvs) (h : Hashed key e kv.2 k) :
      Hashed key fi (.hash kvs) k
  | field {key : Bool} {fi : FieldInfo} {oid : ℕ} {klass : VALUE} {eigen : Bool}
      {ivars : List (ID × Value)} {fields : FieldInfoMap} {e : Int16 × FieldInfo} {k : VALUE}
      (table : sch.fieldInfoMap fi.klass = some fields) (isStruct : sch.isUnion fi.klass = false)
      (mem : e ∈ fields.entries) (h : Hashed false e.2 (ivarGet ivars e.2.ivarName) k) :
      Hashed key fi (.obj oid klass eigen ivars) k
  | member {key : Bool} {fi : FieldInfo} {oid : ℕ} {klass : VALUE} {eigen : Bool}
      {ivars : List (ID × Value)} {fields : FieldInfoMap} {e : Int16 × FieldInfo} {k : VALUE}
      (table : sch.fieldInfoMap fi.klass = some fields) (isUnion : sch.isUnion fi.klass = true)
      (mem : e ∈ fields.entries) (tag : setField ivars = some e.2.symName)
      (h : Hashed key e.2 (ivarGet ivars e.2.ivarName) k) :
      Hashed key fi (.obj oid klass eigen ivars) k

/-- The Sets and Hashes in the value compare their objects as Ruby does: no field stands before
    the methods that this goes through. -/
def PlainlyKeyed (fi : FieldInfo) (v : Value) : Prop :=
  ∀ k, Hashed sch false fi v k → ∀ c ∈ sch.findClass k, ∀ m ∈ keyMethods c.inheritsUnion,
    m ∉ c.fieldNames

theorem plainlyKeyed_of_unshadowed {sch : Schema} (h : Unshadowed sch) (fi : FieldInfo)
    (v : Value) : PlainlyKeyed sch fi v :=
  fun _ _ _ hc _ hm => not_mem_fieldNames h hc hm

/-- `Φ` holds of every object that reading the value makes. -/
def Everywhere (Φ : VALUE → List (ID × Value) → Prop) (fi : FieldInfo) (v : Value) : Prop :=
  ∀ k iv, Rebuilt sch fi v k iv → Φ k iv

variable {sch} {Φ : VALUE → List (ID × Value) → Prop} {fi : FieldInfo}

theorem everywhere_ary {e : FieldInfo} (he : fi.elementType = some e) {xs : List Value} :
    Everywhere sch Φ fi (.ary xs) ↔ ∀ x ∈ xs, Everywhere sch Φ e x := by
  refine ⟨fun h x hx k iv hr => h k iv (.list he hx hr), fun h k iv hr => ?_⟩
  cases hr with
  | list element mem hr =>
    obtain rfl := Option.some.inj (he.symm.trans element)
    exact h _ mem k iv hr

theorem everywhere_set {e : FieldInfo} (he : fi.elementType = some e) {xs : List Value} :
    Everywhere sch Φ fi (.set xs) ↔ ∀ x ∈ xs, Everywhere sch Φ e x := by
  refine ⟨fun h x hx k iv hr => h k iv (.set he hx hr), fun h k iv hr => ?_⟩
  cases hr with
  | set element mem hr =>
    obtain rfl := Option.some.inj (he.symm.trans element)
    exact h _ mem k iv hr

theorem everywhere_hash {key e : FieldInfo} (hk : fi.keyType = some key)
    (he : fi.elementType = some e) {kvs : List (Value × Value)} :
    Everywhere sch Φ fi (.hash kvs) ↔
      ∀ kv ∈ kvs, Everywhere sch Φ key kv.1 ∧ Everywhere sch Φ e kv.2 := by
  refine ⟨fun h kv hkv => ⟨fun k iv hr => h k iv (.key hk hkv hr),
    fun k iv hr => h k iv (.value he hkv hr)⟩, fun h k iv hr => ?_⟩
  cases hr with
  | key keyType mem hr =>
    obtain rfl := Option.some.inj (hk.symm.trans keyType)
    exact (h _ mem).1 k iv hr
  | value element mem hr =>
    obtain rfl := Option.some.inj (he.symm.trans element)
    exact (h _ mem).2 k iv hr

theorem everywhere_and {Ψ : VALUE → List (ID × Value) → Prop} {v : Value} :
    Everywhere sch (fun k iv => Φ k iv ∧ Ψ k iv) fi v ↔
      Everywhere sch Φ fi v ∧ Everywhere sch Ψ fi v := by
  constructor
  · exact fun h => ⟨fun k iv hr => (h k iv hr).1, fun k iv hr => (h k iv hr).2⟩
  · exact fun h k iv hr => ⟨h.1 k iv hr, h.2 k iv hr⟩

section Object
variable {fields : FieldInfoMap} {oid : ℕ} {klass : VALUE} {eigen : Bool}
  {ivars : List (ID × Value)}

theorem everywhere_struct (hf : sch.fieldInfoMap fi.klass = some fields)
    (hu : sch.isUnion fi.klass = false) : Everywhere sch Φ fi (.obj oid klass eigen ivars) ↔
      Φ fi.klass ivars ∧ ∀ e ∈ fields.entries, ivarGet ivars e.2.ivarName ≠ .nil →
        Everywhere sch Φ e.2 (ivarGet ivars e.2.ivarName) := by
  constructor
  · intro h
    have hcached : sch.Cached fi.klass := by simp [Schema.Cached, hf]
    exact ⟨h _ _ (.self fi oid klass eigen ivars hcached),
      fun e he hne k iv hr => h k iv (.field hf hu he hne hr)⟩
  · rintro ⟨hself, hall⟩ k iv hr
    cases hr with
    | self => exact hself
    | field table _ mem held hr =>
      obtain rfl := Option.some.inj (hf.symm.trans table)
      exact hall _ mem held k iv hr
    | member _ isUnion => exact absurd (isUnion.symm.trans hu) (by simp)

theorem everywhere_unset (hf : sch.fieldInfoMap fi.klass = some fields)
    (hu : sch.isUnion fi.klass = true) (tag : setField ivars = none) :
    Everywhere sch Φ fi (.obj oid klass eigen ivars) ↔ Φ fi.klass ivars := by
  have hcached : sch.Cached fi.klass := by simp [Schema.Cached, hf]
  refine ⟨fun h => h _ _ (.self fi oid klass eigen ivars hcached), fun h k iv hr => ?_⟩
  cases hr with
  | self => exact h
  | field _ isStruct => exact absurd (isStruct.symm.trans hu) (by simp)
  | member _ _ _ tag' => exact absurd (tag'.symm.trans tag) (by simp)

theorem everywhere_union (hf : sch.fieldInfoMap fi.klass = some fields)
    (hu : sch.isUnion fi.klass = true) {e : Int16 × FieldInfo} (he : e ∈ fields.entries)
    (tag : setField ivars = some e.2.symName) : Everywhere sch Φ fi (.obj oid klass eigen ivars) ↔
      Φ fi.klass ivars ∧ Everywhere sch Φ e.2 (ivarGet ivars e.2.ivarName) := by
  constructor
  · intro h
    have hcached : sch.Cached fi.klass := by simp [Schema.Cached, hf]
    exact ⟨h _ _ (.self fi oid klass eigen ivars hcached),
      fun k iv hr => h k iv (.member hf hu he tag hr)⟩
  · rintro ⟨hself, hheld⟩ k iv hr
    cases hr with
    | self => exact hself
    | field _ isStruct => exact absurd (isStruct.symm.trans hu) (by simp)
    | member table _ mem tag' hr =>
      obtain rfl := Option.some.inj (hf.symm.trans table)
      have hname := Option.some.inj (tag.symm.trans tag')
      obtain rfl := sch.entry_unique hf he mem (by
        rw [sch.ivarName _ _ hf _ he, sch.ivarName _ _ hf _ mem, hname])
      exact hheld k iv hr

end Object

/-- The object of the class lacks no default that it should have. -/
def KeepsDefaults (sch : Schema) (k : VALUE) (iv : List (ID × Value)) : Prop :=
  ∀ fields ∈ sch.fieldInfoMap k, sch.isUnion k = false → ∀ name,
    (∀ e ∈ fields.entries, e.2.ivarName = name → ivarGet iv name = .nil) →
    madeIvar sch k name = newIvar sch k name

/-- The object of the class is made, and holds in the end what it should: every default of the
    class, and what was written over it. -/
def Restores (sch : Schema) (k : VALUE) (iv : List (ID × Value)) : Prop :=
  ∀ c ∈ sch.findClass k,
    if c.inheritsUnion then "initialize" ∉ c.fieldNames
    else if "initialize" ∈ c.fieldNames then
      -- The constructor is a reader, and only what is written is there.
      ∀ d ∈ generateDefaultValues c.fields, ∃ fields ∈ sch.fieldInfoMap k, ∃ e ∈ fields.entries,
        e.2.ivarName = "@" ++ d.1 ∧ ivarGet iv e.2.ivarName ≠ .nil
    else generateDefaultValues c.fields = [] ∨ "assign_defaults" ∉ c.fieldNames ∧
      "name_to_accessors" ∉ c.fieldNames ∧ "send" ∉ c.fieldNames

theorem keepsDefaults_of_eq {k : VALUE} (h : newIvars sch k = defaultIvars (sch.defaultValues k))
    (iv : List (ID × Value)) : KeepsDefaults sch k iv := by
  intro _ _ _ name _
  unfold madeIvar newIvar
  rw [h]

theorem keepsDefaults_union {k : VALUE} (h : sch.isUnion k = true) (iv : List (ID × Value)) :
    KeepsDefaults sch k iv :=
  fun _ _ isStruct => absurd (isStruct.symm.trans h) (by simp)

theorem keepsDefaults_iff_written {k : VALUE} {iv : List (ID × Value)} {ds : List (ID × Value)}
    (hstruct : sch.isUnion k = false) (hcached : sch.Cached k)
    (hdefaults : sch.defaultValues k = ds) (hne : ∀ d ∈ ds, d.2 ≠ .nil)
    (hnew : newIvars sch k = []) :
    KeepsDefaults sch k iv ↔ ∀ d ∈ ds, ∃ fields ∈ sch.fieldInfoMap k, ∃ e ∈ fields.entries,
        e.2.ivarName = "@" ++ d.1 ∧ ivarGet iv e.2.ivarName ≠ .nil := by
  obtain ⟨fields, hf⟩ := Option.isSome_iff_exists.mp hcached
  unfold KeepsDefaults madeIvar newIvar
  rw [hnew, hdefaults]
  constructor
  · intro h d hd
    by_contra hnone
    refine ivarGet_defaultIvars_ne_nil hne hd (h fields hf hstruct _ fun e he hname => ?_).symm
    by_contra hheld
    rw [← hname] at hheld
    exact hnone ⟨fields, hf, e, he, hname, hheld⟩
  · intro h fields' hf' _ name hname
    rcases ivarGet_defaultIvars ds name with hnil | ⟨d, hd, rfl, -⟩
    · rw [hnil]
      rfl
    · obtain ⟨fields₁, hf₁, e, he, hivar, hheld⟩ := h d hd
      obtain rfl : fields' = fields₁ := Option.some.inj (hf'.symm.trans hf₁)
      rw [hivar] at hheld
      exact absurd (hname e he hivar) hheld

theorem restores_iff {k : VALUE} (hk : sch.Cached k) (iv : List (ID × Value)) :
    Restores sch k iv ↔ Makes sch k ∧ KeepsDefaults sch k iv := by
  obtain ⟨c, hc, -, hisUnion, hdefaults⟩ := sch.classes k hk
  have hall : ∀ {Φ : RubyClass → Prop}, (∀ c' ∈ sch.findClass k, Φ c') ↔ Φ c := by
    intro Φ
    constructor
    · exact fun h => h c hc
    · intro h c' hc'
      obtain rfl : c = c' := Option.some.inj (hc.symm.trans hc')
      exact h
  have hnew : newIvars sch k = bareIvars c := by
    unfold newIvars
    rw [hc]
    rfl
  unfold Restores Makes
  rw [hall, hall]
  unfold MakesBare
  cases hu : c.inheritsUnion with
  | true =>
    rw [if_pos rfl, if_pos rfl]
    exact (and_iff_left (keepsDefaults_union (hisUnion.trans hu) iv)).symm
  | false =>
    simp only [Bool.false_eq_true, if_false]
    by_cases hinit : "initialize" ∈ c.fieldNames
    · have hbare : newIvars sch k = [] := hnew.trans (if_pos (.inr hinit))
      have hwritten : KeepsDefaults sch k iv ↔ _ := keepsDefaults_iff_written (hisUnion.trans hu) hk
        hdefaults (fun d hd => default_ne_nil hd) hbare
      rw [if_pos hinit, hwritten]
      exact (and_iff_right (.inl hinit)).symm
    · have hbare : newIvars sch k = defaultIvars (sch.defaultValues k) := by
        rw [hnew, hdefaults]
        exact if_neg (by simp [hu, hinit])
      rw [if_neg hinit]
      simp only [hinit, false_or]
      exact (and_iff_left (keepsDefaults_of_eq hbare iv)).symm

/-- Every class whose objects reading the value makes. -/
def AllMade (sch : Schema) (fi : FieldInfo) (v : Value) : Prop :=
  Everywhere sch (fun k _ => Makes sch k) fi v

section AllMade
variable {fields : FieldInfoMap} {oid : ℕ} {klass : VALUE} {eigen : Bool}
  {ivars : List (ID × Value)}

theorem allMade_struct (hf : sch.fieldInfoMap fi.klass = some fields)
    (hu : sch.isUnion fi.klass = false) : AllMade sch fi (.obj oid klass eigen ivars) ↔
      Makes sch fi.klass ∧ ∀ e ∈ fields.entries, ivarGet ivars e.2.ivarName ≠ .nil →
        AllMade sch e.2 (ivarGet ivars e.2.ivarName) :=
  everywhere_struct hf hu

theorem allMade_unset (hf : sch.fieldInfoMap fi.klass = some fields)
    (hu : sch.isUnion fi.klass = true) (tag : setField ivars = none) :
    AllMade sch fi (.obj oid klass eigen ivars) ↔ Makes sch fi.klass :=
  everywhere_unset hf hu tag

theorem allMade_union (hf : sch.fieldInfoMap fi.klass = some fields)
    (hu : sch.isUnion fi.klass = true) {e : Int16 × FieldInfo} (he : e ∈ fields.entries)
    (tag : setField ivars = some e.2.symName) : AllMade sch fi (.obj oid klass eigen ivars) ↔
      Makes sch fi.klass ∧ AllMade sch e.2 (ivarGet ivars e.2.ivarName) :=
  everywhere_union hf hu he tag

end AllMade

/-- Every object that reading the value makes. -/
def Rebuilds (sch : Schema) (fi : FieldInfo) (v : Value) : Prop :=
  Everywhere sch (Restores sch) fi v

theorem Rebuilt.cached {v : Value} {k : VALUE} {iv : List (ID × Value)}
    (h : Rebuilt sch fi v k iv) : sch.Cached k := by
  induction h with
  | self fi oid klass eigen ivars cached => exact cached
  | list _ _ _ ih | set _ _ _ ih | key _ _ _ ih | value _ _ _ ih => exact ih
  | field _ _ _ _ _ ih | member _ _ _ _ _ ih => exact ih

theorem rebuilds_iff {v : Value} :
    Rebuilds sch fi v ↔ AllMade sch fi v ∧ Everywhere sch (KeepsDefaults sch) fi v := by
  unfold Rebuilds AllMade
  rw [← everywhere_and]
  constructor
  · exact fun h k iv hr => (restores_iff hr.cached iv).mp (h k iv hr)
  · exact fun h k iv hr => (restores_iff hr.cached iv).mpr (h k iv hr)

theorem rebuilds_of_unshadowed (h : Unshadowed sch) (v : Value) : Rebuilds sch fi v := by
  intro k iv hr
  have hk := hr.cached
  rw [restores_iff hk]
  refine ⟨h.makes k, ?_⟩
  cases hu : sch.isUnion k with
  | true => exact keepsDefaults_union hu iv
  | false => exact keepsDefaults_of_eq (h.newIvars_struct hk hu) iv

/-- What is read is the value with the defaults exactly where no object lacks one. -/
theorem agrees_new_iff {ρ : VALUE → VALUE} {v y : Value}
    (h : Agrees sch (madeIvar sch) ρ fi v y) : Agrees sch (newIvar sch) ρ fi v y ↔
      Everywhere sch (KeepsDefaults sch) fi v := by
  induction h with
  | int fi n => exact ⟨fun _ _ _ hr => (by cases hr), fun _ => .int fi n⟩
  | bool fi b => exact ⟨fun _ _ _ hr => (by cases hr), fun _ => .bool fi b⟩
  | double fi bits => exact ⟨fun _ _ _ hr => (by cases hr), fun _ => .double fi bits⟩
  | string fi enc bytes => exact ⟨fun _ _ _ hr => (by cases hr), fun _ => .string fi enc bytes⟩
  | list fi e xs ys element size elems ih =>
    rw [everywhere_ary element]
    constructor
    · intro h x hx
      obtain ⟨y, hxy⟩ := exists_mem_zip_left size hx
      cases h with
      | list _ e' _ _ element' _ elems' =>
        obtain rfl := Option.some.inj (element.symm.trans element')
        exact (ih (x, y) hxy).mp (elems' (x, y) hxy)
    · intro h
      exact .list fi e xs ys element size fun p hp => (ih p hp).mpr (h p.1 (List.of_mem_zip hp).1)
  | set fi e xs ys element size elems ih =>
    rw [everywhere_set element]
    constructor
    · intro h x hx
      obtain ⟨y, hxy⟩ := exists_mem_zip_left size hx
      cases h with
      | set _ e' _ _ element' _ elems' =>
        obtain rfl := Option.some.inj (element.symm.trans element')
        exact (ih (x, y) hxy).mp (elems' (x, y) hxy)
    · intro h
      exact .set fi e xs ys element size fun p hp => (ih p hp).mpr (h p.1 (List.of_mem_zip hp).1)
  | map fi k e kvs kvs' key element size keys values ihk ihe =>
    rw [everywhere_hash key element]
    constructor
    · intro h kv hkv
      obtain ⟨kv', hzip⟩ := exists_mem_zip_left size hkv
      cases h with
      | map _ k' e' _ _ key' element' _ keys' values' =>
        obtain rfl := Option.some.inj (key.symm.trans key')
        obtain rfl := Option.some.inj (element.symm.trans element')
        exact ⟨(ihk (kv, kv') hzip).mp (keys' _ hzip), (ihe (kv, kv') hzip).mp (values' _ hzip)⟩
    · intro h
      exact .map fi k e kvs kvs' key element size
        (fun p hp => (ihk p hp).mpr (h p.1 (List.of_mem_zip hp).1).1)
        fun p hp => (ihe p hp).mpr (h p.1 (List.of_mem_zip hp).1).2
  | struct fi oid oid' eigen ivars ivars' fields table isStruct held rest ih =>
    rw [everywhere_struct table isStruct]
    constructor
    · intro h
      cases h with
      | struct _ _ _ _ _ _ fields₁ table₁ _ held₁ rest₁ =>
        obtain rfl := Option.some.inj (table.symm.trans table₁)
        refine ⟨fun fields₂ hfields₂ _ name hname => ?_, fun e he hne => ?_⟩
        · obtain rfl := Option.some.inj (table.symm.trans hfields₂)
          rw [← rest name hname, ← rest₁ name hname]
        · exact (ih e he hne).mp (held₁ e he hne)
      | unset _ _ _ _ _ _ _ _ isUnion => exact absurd (isUnion.symm.trans isStruct) (by simp)
      | union _ _ _ _ _ _ _ _ _ isUnion => exact absurd (isUnion.symm.trans isStruct) (by simp)
    · rintro ⟨hkeeps, hall⟩
      refine .struct fi oid oid' eigen ivars ivars' fields table isStruct
        (fun e he hne => (ih e he hne).mpr (hall e he hne)) fun name hname => ?_
      rw [rest name hname]
      exact hkeeps fields table isStruct name hname
  | unset fi oid oid' eigen ivars ivars' fields table isUnion tag rest =>
    rw [everywhere_unset table isUnion tag]
    refine ⟨fun _ _ _ isStruct => absurd (isStruct.symm.trans isUnion) (by simp), fun _ => ?_⟩
    exact .unset fi oid oid' eigen ivars ivars' fields table isUnion tag rest
  | union fi oid oid' eigen ivars ivars' fields e table isUnion member tag tag' held rest ih =>
    rw [everywhere_union table isUnion member tag, ← ih]
    constructor
    · intro h
      refine ⟨fun _ _ isStruct => absurd (isStruct.symm.trans isUnion) (by simp), ?_⟩
      cases h with
      | struct _ _ _ _ _ _ _ _ isStruct => exact absurd (isStruct.symm.trans isUnion) (by simp)
      | unset _ _ _ _ _ _ _ _ _ tag₁ => exact absurd (tag₁.symm.trans tag) (by simp)
      | union _ _ _ _ _ _ fields₁ e₁ table₁ _ member₁ tag₁ _ held₁ _ =>
        obtain rfl := Option.some.inj (table.symm.trans table₁)
        have hname := Option.some.inj (tag.symm.trans tag₁)
        obtain rfl := sch.entry_unique table member member₁ (by
          rw [sch.ivarName _ _ table _ member, sch.ivarName _ _ table _ member₁, hname])
        exact held₁
    · rintro ⟨-, hheld⟩
      exact .union fi oid oid' eigen ivars ivars' fields e table isUnion member tag tag' hheld rest

end Rebuilt

section Filled
variable {R : FieldInfo → FieldInfo → Value → Value → Prop} {fields' : FieldInfoMap}

/-- What the loop of `readStruct` has done at its end to the instance variables: a field that
    was written is in that of the same id, the others are as before. -/
def Filled (R : FieldInfo → FieldInfo → Value → Value → Prop) (fields' : FieldInfoMap)
    (es : List (Int16 × FieldInfo)) (ivars before after : List (ID × Value)) : Prop :=
  (∀ e ∈ es, ∀ fd', fields'.find? e.1 = some fd' → ivarGet ivars e.2.ivarName ≠ .nil →
    R e.2 fd' (ivarGet ivars e.2.ivarName) (ivarGet after fd'.ivarName)) ∧
  ∀ name, (∀ e ∈ es, ∀ fd', fields'.find? e.1 = some fd' → fd'.ivarName = name →
    ivarGet ivars e.2.ivarName = .nil) → ivarGet after name = ivarGet before name

variable {e : Int16 × FieldInfo} {es : List (Int16 × FieldInfo)}
  {ivars before after : List (ID × Value)}

theorem Filled.nil : Filled R fields' [] ivars before before :=
  ⟨fun _ he => absurd he List.not_mem_nil, fun _ _ => rfl⟩

theorem Filled.keep (h : Filled R fields' es ivars before after)
    (hkeep : ∀ fd', fields'.find? e.1 = some fd' → ivarGet ivars e.2.ivarName = .nil) :
    Filled R fields' (e :: es) ivars before after := by
  refine ⟨List.forall_mem_cons.mpr ⟨?_, h.1⟩, fun name hall => ?_⟩
  · exact fun fd' hfd' hne => absurd (hkeep fd' hfd') hne
  · exact h.2 name fun e' he' => hall e' (List.mem_cons_of_mem _ he')

/-- No other field of the reader goes into the instance variable. -/
def Alone (fields' : FieldInfoMap) (es : List (Int16 × FieldInfo)) (fd' : FieldInfo) : Prop :=
  ∀ e' ∈ es, ∀ fd₁, fields'.find? e'.1 = some fd₁ → fd₁.ivarName ≠ fd'.ivarName

theorem alone_of_nodup {sch : Schema} {klass : VALUE} (hf : sch.fieldInfoMap klass = some fields')
    (hnotin : e.1 ∉ es.map Prod.fst) {fd' : FieldInfo} (hfind : fields'.find? e.1 = some fd') :
    Alone fields' es fd' := by
  intro e' he' fd₁ hfd₁ hname
  have heq := sch.entry_unique hf ((fields'.find?_eq_some_iff _ _).mp hfd₁)
    ((fields'.find?_eq_some_iff _ _).mp hfind) hname
  apply hnotin
  rw [← (Prod.mk.inj heq).1]
  exact List.mem_map_of_mem he'

theorem Filled.set {fd' : FieldInfo} {y : Value} (hfind : fields'.find? e.1 = some fd')
    (alone : Alone fields' es fd') (hne : ivarGet ivars e.2.ivarName ≠ .nil)
    (hy : R e.2 fd' (ivarGet ivars e.2.ivarName) y)
    (h : Filled R fields' es ivars (ivarSet before fd'.ivarName y) after) :
    Filled R fields' (e :: es) ivars before after := by
  refine ⟨List.forall_mem_cons.mpr ⟨?_, h.1⟩, fun name hall => ?_⟩
  · intro fd₁ hfd₁ _
    obtain rfl : fd' = fd₁ := Option.some.inj (hfind.symm.trans hfd₁)
    have hafter := h.2 fd'.ivarName fun e' he' fd₁ hfd₁ hn => absurd hn (alone e' he' fd₁ hfd₁)
    rw [hafter, ivarGet_ivarSet, if_pos rfl]
    exact hy
  · have hother : fd'.ivarName ≠ name := fun hn => hne (hall e (by simp) fd' hfind hn)
    rw [h.2 name fun e' he' => hall e' (List.mem_cons_of_mem _ he'), ivarGet_ivarSet,
      if_neg hother]

theorem entries_nodup (fields : FieldInfoMap) : (fields.entries.map Prod.fst).Nodup := by
  refine List.Nodup.of_map id ?_
  rw [List.map_id, List.Nodup, List.pairwise_map]
  refine fields.sorted.imp fun h heq => ?_
  rw [heq] at h
  exact absurd h (by simp)

def Held (Φ : Value → Prop) (ivars : List (ID × Value)) : Prop :=
  ∀ name, ivarGet ivars name ≠ .nil → Φ (ivarGet ivars name)

theorem held_of_entries {Φ : Value → Prop} (h : ∀ e ∈ ivars, Φ e.2) : Held Φ ivars :=
  fun name hne => h (name, ivarGet ivars name) (ivarGet_mem hne)

end Filled

section Within

/-- The identities visible in a value were given out from `lo` on and before `hi`. -/
def Within (sch : Schema) (lo hi : ℕ) (y : Value) : Prop :=
  ∀ o ∈ visibleOids sch.isUnion y, lo ≤ o ∧ o < hi

theorem within_elems {sch : Schema} {lo hi : ℕ} {ys : List Value}
    (h : ∀ y ∈ ys, Within sch lo hi y) : ∀ o ∈ elemOids sch.isUnion ys, lo ≤ o ∧ o < hi := by
  intro o ho
  rw [elemOids_eq] at ho
  obtain ⟨y, hy, ho⟩ := List.mem_flatMap.mp ho
  exact h y hy o ho

end Within

end Sparsam.ObjectAgreement
