import Sparsam.ListPairing
import Sparsam.ObjectHashes

set_option autoImplicit false

/-!
# A decoded object against the one that was written

The copy has structs of its own. It is found where an element of a Set or a key
of a Hash is hashed by content, and is not where the hash goes to a struct.
-/
namespace Sparsam.DecodedCopies
open ListPairing WireProtocol RubyRuntime FieldInfoCache ObjectMethods ObjectHashes
open SerializerConformance
open ObjectAgreement hiding Within
open SerializerWire (Ordinary)

section Schema
variable (sch : Schema)

/-- The instance variables of the fields that `==` of a struct compares: those that `each_field`
    goes over. A field of this name stands before it, and `struct_fields` has one answer. -/
def fieldNames (klass : VALUE) : List ID :=
  (sch.findClass klass).elim [] fun c =>
    if "each_field" ∈ c.fieldNames then []
    else (c.fieldNames.filter fun f => decide (f ≠ "struct_fields")).map fun f => "@" ++ f

def ownHash (klass : VALUE) : Bool :=
  (sch.findClass klass).elim false fun c => decide ("hash" ∈ c.fieldNames)

/-- What `==` and `hash` find at the classes of the schema. -/
def lookup : Lookup := ⟨sch.isUnion, fieldNames sch, ownHash sch⟩

end Schema

/-- No field stands before another method that `==` and `hash` of the object call, or the reader
    answers for the method: that of the member which is set. -/
structure Answers (c : RubyClass) (iv : List (ID × Value)) : Prop where
  compares : c.superclass ≠ .applicationException
  accessors : "name_to_accessors" ∉ c.fieldNames ∧ "send" ∉ c.fieldNames
  union : c.superclass = .union → "get_set_field" ∉ c.fieldNames ∧
    "instance_variable_get" ∉ c.fieldNames ∧ "struct_fields" ∉ c.fieldNames ∧
    ∀ m ∈ ["hash", "get_value"], m ∈ c.fieldNames → setField iv = some m

/-- The objects in the value are of generated struct and union classes, and answer. -/
def Plain (sch : Schema) (v : Value) : Prop :=
  ∀ o k g iv, Within (.obj o k g iv) v → ∃ c, sch.findClass k = some c ∧ Answers c iv

/-- A value that `==` and `hash` go through. -/
structure Instances {C : Type} (mix : HashInput C → C) (sch : Schema) (v : Value) : Prop
    extends Proper mix (lookup sch) v where
  plain : Plain sch v

/-- The hash of a value depends on the struct with this identity. -/
inductive Sees (cls : Lookup) (o : ℕ) : Value → Prop where
  | struct {k : VALUE} {g : Bool} {iv : List (ID × Value)} (own : cls.ownHash k = false)
      (hk : cls.isUnion k = false) : Sees cls o (.obj o k g iv)
  | union {o' : ℕ} {k : VALUE} {g : Bool} {iv : List (ID × Value)} {f : ID}
      (own : cls.ownHash k = false) (hk : cls.isUnion k = true) (hf : setField iv = some f)
      (h : Sees cls o (ivarGet iv ("@" ++ f))) : Sees cls o (.obj o' k g iv)
  | ary {xs : List Value} {x : Value} (hx : x ∈ xs) (h : Sees cls o x) : Sees cls o (.ary xs)
  | set {xs : List Value} {x : Value} (hx : x ∈ xs) (h : Sees cls o x) : Sees cls o (.set xs)
  | key {kvs : List (Value × Value)} {e : Value × Value} (he : e ∈ kvs) (h : Sees cls o e.1) :
      Sees cls o (.hash kvs)
  | value {kvs : List (Value × Value)} {e : Value × Value} (he : e ∈ kvs) (h : Sees cls o e.2) :
      Sees cls o (.hash kvs)

/-- What is read of the value is not `==` to it: an element or a key cannot be found, or a field
    that the wire has no place for is not what a new object has there. -/
inductive Differs {C : Type} [DecidableEq C] (mix : HashInput C → C) (sch : Schema) :
    Value → Prop where
  | elem {xs : List Value} {x : Value} {o : ℕ} (hx : x ∈ xs) (h : Sees (lookup sch) o x) :
      Differs mix sch (.set xs)
  | key {kvs : List (Value × Value)} {e : Value × Value} {o : ℕ} (he : e ∈ kvs)
      (h : Sees (lookup sch) o e.1) : Differs mix sch (.hash kvs)
  | value {kvs : List (Value × Value)} {e : Value × Value} (he : e ∈ kvs)
      (h : Differs mix sch e.2) : Differs mix sch (.hash kvs)
  | ary {xs : List Value} {x : Value} (hx : x ∈ xs) (h : Differs mix sch x) :
      Differs mix sch (.ary xs)
  | struct {o : ℕ} {k : VALUE} {g : Bool} {iv : List (ID × Value)} {fields : FieldInfoMap}
      {e : Int16 × FieldInfo} (hk : sch.isUnion k = false)
      (table : sch.fieldInfoMap k = some fields) (he : e ∈ fields.entries)
      (hname : e.2.ivarName ∈ fieldNames sch k) (h : Differs mix sch (ivarGet iv e.2.ivarName)) :
      Differs mix sch (.obj o k g iv)
  | lost {o : ℕ} {k : VALUE} {g : Bool} {iv : List (ID × Value)} {fields : FieldInfoMap} {name : ID}
      (hk : sch.isUnion k = false) (table : sch.fieldInfoMap k = some fields)
      (hname : name ∈ fieldNames sch k) (hlost : ∀ e ∈ fields.entries, e.2.ivarName ≠ name)
      (h : rubyEq mix (lookup sch) (madeIvar sch k name) (ivarGet iv name) = false) :
      Differs mix sch (.obj o k g iv)
  | union {o : ℕ} {k : VALUE} {g : Bool} {iv : List (ID × Value)} {f : ID}
      (hk : sch.isUnion k = true) (hf : setField iv = some f)
      (h : Differs mix sch (ivarGet iv ("@" ++ f))) : Differs mix sch (.obj o k g iv)

mutual
def objectIds : Value → List ℕ
  | .ary xs | .set xs => elemObjectIds xs
  | .hash kvs => entryObjectIds kvs
  | .obj o _ _ iv => o :: ivarObjectIds iv
  | _ => []

def elemObjectIds : List Value → List ℕ
  | [] => []
  | x :: xs => objectIds x ++ elemObjectIds xs

def entryObjectIds : List (Value × Value) → List ℕ
  | [] => []
  | (k, v) :: kvs => objectIds k ++ objectIds v ++ entryObjectIds kvs

def ivarObjectIds : List (ID × Value) → List ℕ
  | [] => []
  | (_, v) :: rest => objectIds v ++ ivarObjectIds rest
end

/-- No object of one is an object of the other. -/
def Fresh (x y : Value) : Prop := ∀ o ∈ objectIds x, o ∉ objectIds y

instance freshDecidable (x y : Value) : Decidable (Fresh x y) :=
  inferInstanceAs (Decidable (∀ o ∈ objectIds x, o ∉ objectIds y))

/-- No field that is nil has a default. -/
def NilsKept (sch : Schema) (x : Value) : Prop :=
  ∀ o k g iv, Within (.obj o k g iv) x → sch.isUnion k = false → ∀ name ∈ fieldNames sch k,
    ivarGet iv name = .nil → newIvar sch k name = .nil

def NoNaN (x : Value) : Prop := ∀ d, Within (.float d) x → isNaN d = false

theorem objectIds_elem {xs : List Value} {x : Value} (hx : x ∈ xs) {o : ℕ}
    (ho : o ∈ objectIds x) : o ∈ elemObjectIds xs := by
  induction xs with
  | nil => cases hx
  | cons y ys ih =>
    rw [elemObjectIds, List.mem_append]
    rcases List.mem_cons.mp hx with rfl | hx
    · exact .inl ho
    · exact .inr (ih hx)

theorem objectIds_entry {kvs : List (Value × Value)} {e : Value × Value} (he : e ∈ kvs) {o : ℕ}
    (ho : o ∈ objectIds e.1 ∨ o ∈ objectIds e.2) : o ∈ entryObjectIds kvs := by
  induction kvs with
  | nil => cases he
  | cons d kvs ih =>
    obtain ⟨k, v⟩ := d
    rw [entryObjectIds, List.mem_append, List.mem_append]
    rcases List.mem_cons.mp he with rfl | he
    · exact .inl ho
    · exact .inr (ih he)

theorem objectIds_ivar {iv : List (ID × Value)} {e : ID × Value} (he : e ∈ iv) {o : ℕ}
    (ho : o ∈ objectIds e.2) : o ∈ ivarObjectIds iv := by
  induction iv with
  | nil => cases he
  | cons d iv ih =>
    obtain ⟨n, v⟩ := d
    rw [ivarObjectIds, List.mem_append]
    rcases List.mem_cons.mp he with rfl | he
    · exact .inl ho
    · exact .inr (ih he)

theorem objectIds_within {u v : Value} (h : Within u v) {o : ℕ} (ho : o ∈ objectIds u) :
    o ∈ objectIds v := by
  induction h with
  | refl => exact ho
  | ary hx _ ih => exact objectIds_elem hx ih
  | set hx _ ih => exact objectIds_elem hx ih
  | key he _ ih => exact objectIds_entry he (.inl ih)
  | value he _ ih => exact objectIds_entry he (.inr ih)
  | ivar he _ ih => exact List.mem_cons_of_mem _ (objectIds_ivar he ih)

theorem Fresh.mono {x y x' y' : Value} (h : Fresh x y) (hx : ∀ u, Within u x' → Within u x)
    (hy : ∀ u, Within u y' → Within u y) : Fresh x' y' :=
  fun o ho ho' => h o (objectIds_within (hx x' .refl) ho) (objectIds_within (hy y' .refl) ho')

theorem Fresh.oid_ne {o o' : ℕ} {k k' : VALUE} {g g' : Bool} {iv iv' : List (ID × Value)}
    (h : Fresh (.obj o k g iv) (.obj o' k' g' iv')) : o' ≠ o := by
  rintro rfl
  exact h o' (by simp [objectIds]) (by simp [objectIds])

theorem NilsKept.mono {sch : Schema} {x x' : Value} (h : NilsKept sch x)
    (hx : ∀ u, Within u x' → Within u x) : NilsKept sch x' :=
  fun o k g iv hu => h o k g iv (hx _ hu)

theorem NoNaN.mono {x x' : Value} (h : NoNaN x) (hx : ∀ u, Within u x' → Within u x) : NoNaN x' :=
  fun d hd => h d (hx _ hd)

theorem sees_ne_nil {cls : Lookup} {o : ℕ} {x : Value} (h : Sees cls o x) :
    x ≠ .nil := by
  rintro rfl
  cases h

theorem Sees.mem_objectIds {cls : Lookup} {o : ℕ} {x : Value} (h : Sees cls o x) :
    o ∈ objectIds x := by
  induction h with
  | struct => simp [objectIds]
  | union _ _ _ h ih => exact objectIds_within (within_ivarGet (sees_ne_nil h) _ .refl) ih
  | ary hx _ ih => exact objectIds_elem hx ih
  | set hx _ ih => exact objectIds_elem hx ih
  | key he _ ih => exact objectIds_entry he (.inl ih)
  | value he _ ih => exact objectIds_entry he (.inr ih)

section Codes
variable {C : Type} {mix : HashInput C → C} {cls : Lookup}

theorem eq_nil_of_hashCode (hmix : Function.Injective mix) {y : Value}
    (h : mix .nil = hashCode mix cls y) : y = .nil := by
  rw [hashCode_eq, hmix.eq_iff] at h
  cases y with
  | nil => rfl
  | obj => simp only [hashInput] at h; split_ifs at h
  | _ => simp [hashInput] at h

theorem eq_ary_of_hashCode (hmix : Function.Injective mix) {cs : List C} {y : Value}
    (h : mix (.ary cs) = hashCode mix cls y) :
    ∃ ys, y = .ary ys ∧ cs = ys.map (hashCode mix cls) := by
  rw [hashCode_eq, hmix.eq_iff] at h
  cases y with
  | ary ys => exact ⟨ys, rfl, by simpa [hashInput, elemCodes_eq] using h⟩
  | obj => simp only [hashInput] at h; split_ifs at h
  | _ => simp [hashInput] at h

theorem eq_set_of_hashCode (hmix : Function.Injective mix) {cs : Multiset C} {y : Value}
    (h : mix (.set cs) = hashCode mix cls y) :
    ∃ ys, y = .set ys ∧ cs = ys.map (hashCode mix cls) := by
  rw [hashCode_eq, hmix.eq_iff] at h
  cases y with
  | set ys => exact ⟨ys, rfl, by simpa [hashInput, elemCodes_eq] using h⟩
  | obj => simp only [hashInput] at h; split_ifs at h
  | _ => simp [hashInput] at h

theorem eq_hash_of_hashCode (hmix : Function.Injective mix) {cs : Multiset (C × C)} {y : Value}
    (h : mix (.hash cs) = hashCode mix cls y) :
    ∃ kvs, y = .hash kvs ∧ cs = kvs.map (entryCode mix cls) := by
  rw [hashCode_eq, hmix.eq_iff] at h
  cases y with
  | hash kvs => exact ⟨kvs, rfl, by simpa [hashInput, entryCodes_eq] using h⟩
  | obj => simp only [hashInput] at h; split_ifs at h
  | _ => simp [hashInput] at h

theorem eq_struct_of_hashCode (hmix : Function.Injective mix) {o : ℕ} {y : Value}
    (h : mix (.object o) = hashCode mix cls y) :
    ∃ k g iv, y = .obj o k g iv ∧ cls.ownHash k = false ∧ cls.isUnion k = false := by
  rw [hashCode_eq, hmix.eq_iff] at h
  cases y with
  | obj o' k g iv =>
    simp only [hashInput] at h
    split_ifs at h with hown hk
    cases h
    exact ⟨k, g, iv, rfl, by simpa using hown, by simpa using hk⟩
  | _ => simp [hashInput] at h

theorem eq_union_of_hashCode (hmix : Function.Injective mix) {k : VALUE} {f : Option ID} {c : C}
    {y : Value} (h : mix (.union k f c) = hashCode mix cls y) :
    ∃ o g iv, y = .obj o k g iv ∧ cls.ownHash k = false ∧ cls.isUnion k = true ∧
      setField iv = f ∧
      ∀ name, f = some name → c = hashCode mix cls (ivarGet iv ("@" ++ name)) := by
  rw [hashCode_eq, hmix.eq_iff] at h
  cases y with
  | obj o k' g iv =>
    simp only [hashInput] at h
    split_ifs at h with hown hk
    cases h
    refine ⟨o, g, iv, rfl, by simpa using hown, hk, rfl, fun name hname => ?_⟩
    rw [hname]
    exact codeAt_eq mix cls ("@" ++ name) iv
  | _ => simp [hashInput] at h

theorem hashCode_struct {o : ℕ} {k : VALUE} {g : Bool} {iv : List (ID × Value)}
    (hown : cls.ownHash k = false) (hk : cls.isUnion k = false) :
    hashCode mix cls (.obj o k g iv) = mix (.object o) := by
  simp only [hashCode_obj, hown, hk, Bool.false_eq_true, if_false]

theorem hashCode_union {o : ℕ} {k : VALUE} {g : Bool} {iv : List (ID × Value)}
    (hown : cls.ownHash k = false) (hk : cls.isUnion k = true) :
    hashCode mix cls (.obj o k g iv) = mix (.union k (setField iv) (match setField iv with
      | none => mix .nil
      | some f => hashCode mix cls (ivarGet iv ("@" ++ f)))) := by
  have hcode := hashCode_obj mix cls o k g iv
  rw [if_neg (by simp [hown]), if_pos hk] at hcode
  exact hcode

theorem Sees.of_hashCode (hmix : Function.Injective mix) {o : ℕ} {x y : Value}
    (h : Sees cls o x) (hcode : hashCode mix cls x = hashCode mix cls y) : Sees cls o y := by
  induction h generalizing y with
  | struct own hk =>
    rw [hashCode_struct own hk] at hcode
    obtain ⟨k', g', iv', rfl, own', hk'⟩ := eq_struct_of_hashCode hmix hcode
    exact .struct own' hk'
  | @union _ k _ iv f own hk hf _ ih =>
    rw [hashCode_union own hk] at hcode
    obtain ⟨o', g', iv', rfl, own', hk', hfield, hpayload⟩ := eq_union_of_hashCode hmix hcode
    have hcodes := hpayload f hf
    rw [hf] at hcodes
    exact .union own' hk' (hfield.trans hf) (ih hcodes)
  | ary hx _ ih =>
    rw [hashCode] at hcode
    obtain ⟨ys, rfl, hcodes⟩ := eq_ary_of_hashCode hmix hcode
    have hmem := List.mem_map_of_mem (f := hashCode mix cls) hx
    rw [← elemCodes_eq, hcodes] at hmem
    obtain ⟨y, hy, hxy⟩ := List.mem_map.mp hmem
    exact .ary hy (ih hxy.symm)
  | set hx _ ih =>
    rw [hashCode] at hcode
    obtain ⟨ys, rfl, hcodes⟩ := eq_set_of_hashCode hmix hcode
    have hmem := List.mem_map_of_mem (f := hashCode mix cls) hx
    rw [← elemCodes_eq] at hmem
    obtain ⟨y, hy, hxy⟩ := List.mem_map.mp ((Multiset.coe_eq_coe.mp hcodes).subset hmem)
    exact .set hy (ih hxy.symm)
  | key he _ ih =>
    rw [hashCode] at hcode
    obtain ⟨kvs, rfl, hcodes⟩ := eq_hash_of_hashCode hmix hcode
    have hmem := List.mem_map_of_mem (f := entryCode mix cls) he
    rw [entryCodes_eq] at hcodes
    obtain ⟨e, hmem, hcode⟩ := List.mem_map.mp ((Multiset.coe_eq_coe.mp hcodes).subset hmem)
    exact .key hmem (ih (congrArg Prod.fst hcode).symm)
  | value he _ ih =>
    rw [hashCode] at hcode
    obtain ⟨kvs, rfl, hcodes⟩ := eq_hash_of_hashCode hmix hcode
    have hmem := List.mem_map_of_mem (f := entryCode mix cls) he
    rw [entryCodes_eq] at hcodes
    obtain ⟨e, hmem, hcode⟩ := List.mem_map.mp ((Multiset.coe_eq_coe.mp hcodes).subset hmem)
    exact .value hmem (ih (congrArg Prod.snd hcode).symm)

/-- The hash of the value goes to the reader of a field in it. -/
inductive HashedByField (cls : Lookup) : Value → Prop where
  | own {o : ℕ} {k : VALUE} {g : Bool} {iv : List (ID × Value)} (own : cls.ownHash k = true) :
      HashedByField cls (.obj o k g iv)
  | union {o : ℕ} {k : VALUE} {g : Bool} {iv : List (ID × Value)} {f : ID}
      (hk : cls.isUnion k = true) (hf : setField iv = some f)
      (h : HashedByField cls (ivarGet iv ("@" ++ f))) : HashedByField cls (.obj o k g iv)
  | ary {xs : List Value} {x : Value} (hx : x ∈ xs) (h : HashedByField cls x) :
      HashedByField cls (.ary xs)
  | set {xs : List Value} {x : Value} (hx : x ∈ xs) (h : HashedByField cls x) :
      HashedByField cls (.set xs)
  | key {kvs : List (Value × Value)} {e : Value × Value} (he : e ∈ kvs)
      (h : HashedByField cls e.1) : HashedByField cls (.hash kvs)
  | value {kvs : List (Value × Value)} {e : Value × Value} (he : e ∈ kvs)
      (h : HashedByField cls e.2) : HashedByField cls (.hash kvs)

/-- No element of a Set and no key of a Hash in the value is hashed by a field. -/
structure HashedByContent (cls : Lookup) (x : Value) : Prop where
  sets : ∀ xs, Within (.set xs) x → ∀ e ∈ xs, ¬ HashedByField cls e
  hashes : ∀ kvs, Within (.hash kvs) x → ∀ e ∈ kvs, ¬ HashedByField cls e.1

theorem HashedByContent.mono {x x' : Value} (h : HashedByContent cls x)
    (hx : ∀ u, Within u x' → Within u x) : HashedByContent cls x' :=
  ⟨fun xs hu => h.sets xs (hx _ hu), fun kvs hu => h.hashes kvs (hx _ hu)⟩

theorem sameKey_of_leafCode (hmix : Function.Injective mix) {x y : Value} (hleaf : IsLeaf x)
    (hnan : NoNaN x) (hcode : hashCode mix cls x = hashCode mix cls y) :
    sameKey cls.isUnion x y = true := by
  rw [hashCode_eq, hashCode_eq, hmix.eq_iff] at hcode
  cases x with
  | ary | set | hash | obj => exact hleaf.elim
  | float d =>
    cases y with
    | float d' => simpa [sameKey, floatEq, hnan d .refl, hashInput] using hcode
    | obj => simp only [hashInput] at hcode; split_ifs at hcode
    | _ => simp [hashInput] at hcode
  | str enc bytes =>
    cases y with
    | str enc' bytes' =>
      simp only [hashInput, HashInput.str.injEq] at hcode
      obtain ⟨henc, rfl⟩ := hcode
      simp only [sameKey, comparable, BEq.rfl, Bool.true_and, Bool.or_eq_true, decide_eq_true_eq]
      split_ifs at henc with hall
      · exact .inr hall
      · exact .inl (Option.some.inj henc)
    | obj => simp only [hashInput] at hcode; split_ifs at hcode
    | _ => simp [hashInput] at hcode
  | _ =>
    cases y with
    | obj => simp only [hashInput] at hcode; split_ifs at hcode
    | _ => simp_all [hashInput, sameKey]

theorem sameKey_of_hashCode (hmix : Function.Injective mix) (x : Value) : ∀ y, NoNaN x →
    ¬ HashedByField cls x → hashCode mix cls x = hashCode mix cls y →
      sameKey cls.isUnion x y = true := by
  induction x using Value.induct with
  | ary xs ih =>
    intro y hnan hfield hcode
    rw [hashCode] at hcode
    obtain ⟨ys, rfl, hcodes⟩ := eq_ary_of_hashCode hmix hcode
    rw [elemCodes_eq] at hcodes
    have hlen : xs.length = ys.length := by simpa using congrArg List.length hcodes
    rw [sameKey, sameKeys_iff]
    refine ⟨hlen, fun i h h' => ih _ (List.getElem_mem h) _
      (hnan.mono fun _ hu => .ary (List.getElem_mem h) hu)
      (fun hown => hfield (.ary (List.getElem_mem h) hown)) ?_⟩
    simpa [h, h'] using congrArg (fun cs => cs[i]?) hcodes
  | set xs ih =>
    intro y hnan hfield hcode
    rw [hashCode] at hcode
    obtain ⟨ys, rfl, hcodes⟩ := eq_set_of_hashCode hmix hcode
    rw [elemCodes_eq, Multiset.coe_eq_coe] at hcodes
    rw [sameKey, Bool.and_eq_true, beq_iff_eq, keysWithin_iff]
    refine ⟨by simpa using hcodes.length_eq, fun x hx => ?_⟩
    obtain ⟨y, hy, hxy⟩ := List.mem_map.mp (hcodes.subset (List.mem_map_of_mem hx))
    exact ⟨y, hy, ih x hx y (hnan.mono fun _ hu => .set hx hu)
      (fun hown => hfield (.set hx hown)) hxy.symm⟩
  | hash kvs ih =>
    intro y hnan hfield hcode
    rw [hashCode] at hcode
    obtain ⟨kvs', rfl, hcodes⟩ := eq_hash_of_hashCode hmix hcode
    rw [entryCodes_eq, Multiset.coe_eq_coe] at hcodes
    rw [sameKey, Bool.and_eq_true, beq_iff_eq, entriesWithin_iff]
    refine ⟨by simpa using hcodes.length_eq, fun e he => ?_⟩
    obtain ⟨e', he', heq⟩ := List.mem_map.mp (hcodes.subset (List.mem_map_of_mem he))
    obtain ⟨hkey, hvalue⟩ := Prod.mk.inj heq
    exact ⟨e', he',
      (ih e he).1 _ (hnan.mono fun _ hu => .key he hu) (fun hown => hfield (.key he hown))
        hkey.symm,
      (ih e he).2 _ (hnan.mono fun _ hu => .value he hu) (fun hown => hfield (.value he hown))
        hvalue.symm⟩
  | obj o k g iv ih =>
    intro y hnan hfield hcode
    have hown : cls.ownHash k = false := by
      rw [← Bool.not_eq_true]
      exact fun hown => hfield (.own hown)
    cases hk : cls.isUnion k with
    | true =>
      rw [hashCode_union hown hk] at hcode
      obtain ⟨o', g', iv', rfl, -, -, hset, hpayload⟩ := eq_union_of_hashCode hmix hcode
      rw [sameKey_union hk]
      refine ⟨hset.symm, fun f hf => ?_⟩
      have hcodes := hpayload f hf
      rw [hf] at hcodes
      change hashCode mix cls (ivarGet iv ("@" ++ f)) = _ at hcodes
      by_cases hnil : ivarGet iv ("@" ++ f) = .nil
      · rw [hnil, hashCode] at hcodes
        rw [hnil, sameKey, Value.isNil_eq_true]
        exact eq_nil_of_hashCode hmix hcodes
      · exact ih _ (ivarGet_mem hnil) _ (hnan.mono (within_ivarGet hnil))
          (fun hown => hfield (.union hk hf hown)) hcodes
    | false =>
      rw [hashCode_struct hown hk] at hcode
      obtain ⟨k', g', iv', rfl, -⟩ := eq_struct_of_hashCode hmix hcode
      simp [sameKey, hk]
  | _ => exact fun y hnan _ hcode => sameKey_of_leafCode hmix trivial hnan hcode

theorem codes_nodup (hmix : Function.Injective mix) {xs : List Value}
    (distinct : xs.Pairwise fun x y => sameKey cls.isUnion x y = false)
    (hnan : ∀ x ∈ xs, NoNaN x) (hfield : ∀ x ∈ xs, ¬ HashedByField cls x) :
    (xs.map (hashCode mix cls)).Nodup := by
  rw [List.Nodup, List.pairwise_map]
  refine distinct.imp_of_mem fun hx _ hdiff hcode => ?_
  rw [sameKey_of_hashCode hmix _ _ (hnan _ hx) (hfield _ hx) hcode] at hdiff
  cases hdiff

end Codes

/-- A value that serialize accepts for the definition, without NaN. -/
structure Accepted (sch : Schema) (fi : FieldInfo) (x : Value) : Prop where
  conforms : Conforms sch fi x
  ordinary : Ordinary sch fi x
  numbers : NoNaN x
  keys : HashedByContent (lookup sch) x

section Parts
variable {sch : Schema} {fi e : FieldInfo}

theorem Accepted.ary {xs : List Value} (h : Accepted sch fi (.ary xs))
    (element : fi.elementType = some e) : ∀ x ∈ xs, Accepted sch e x := by
  intro x hx
  refine ⟨?_, ?_, h.numbers.mono fun _ hu => .ary hx hu, h.keys.mono fun _ hu => .ary hx hu⟩
  · cases h.conforms with
    | list _ e' _ _ element' elems =>
      obtain rfl : e = e' := Option.some.inj (element.symm.trans element')
      exact elems x hx
  · cases h.ordinary with
    | list _ e' _ element' _ elems =>
      obtain rfl : e = e' := Option.some.inj (element.symm.trans element')
      exact elems x hx

theorem Accepted.set {xs : List Value} (h : Accepted sch fi (.set xs))
    (element : fi.elementType = some e) : ∀ x ∈ xs, Accepted sch e x := by
  intro x hx
  have hin : ∀ u, Within u x → Within u (.set xs) := fun _ hu => .set hx hu
  cases h.conforms with
  | set _ e₁ _ _ element₁ conform =>
    cases h.ordinary with
    | set _ e₂ _ element₂ _ distinct elems =>
      obtain rfl : e = e₁ := Option.some.inj (element.symm.trans element₁)
      obtain rfl : e = e₂ := Option.some.inj (element.symm.trans element₂)
      exact ⟨conform x hx, elems x hx, h.numbers.mono hin, h.keys.mono hin⟩

theorem Accepted.hash {k : FieldInfo} {kvs : List (Value × Value)} (h : Accepted sch fi (.hash kvs))
    (key : fi.keyType = some k) (element : fi.elementType = some e) :
    ∀ kv ∈ kvs, Accepted sch k kv.1 ∧ Accepted sch e kv.2 := by
  intro kv hkv
  have hkey : ∀ u, Within u kv.1 → Within u (.hash kvs) := fun _ hu => .key hkv hu
  have hvalue : ∀ u, Within u kv.2 → Within u (.hash kvs) := fun _ hu => .value hkv hu
  cases h.conforms with
  | map _ k₁ e₁ _ _ key₁ element₁ keys₁ values₁ =>
    cases h.ordinary with
    | map _ k₂ e₂ _ key₂ element₂ _ _ keys₂ values₂ =>
      obtain rfl : k = k₁ := Option.some.inj (key.symm.trans key₁)
      obtain rfl : e = e₁ := Option.some.inj (element.symm.trans element₁)
      obtain rfl : k = k₂ := Option.some.inj (key.symm.trans key₂)
      obtain rfl : e = e₂ := Option.some.inj (element.symm.trans element₂)
      exact ⟨⟨keys₁ kv hkv, keys₂ kv hkv, h.numbers.mono hkey, h.keys.mono hkey⟩,
        ⟨values₁ kv hkv, values₂ kv hkv, h.numbers.mono hvalue, h.keys.mono hvalue⟩⟩

theorem Accepted.keys_distinct {kvs : List (Value × Value)} (h : Accepted sch fi (.hash kvs)) :
    (kvs.map Prod.fst).Pairwise fun x y => sameKey sch.isUnion x y = false := by
  cases h.ordinary with
  | map _ _ _ _ _ _ _ distinct _ _ => exact List.pairwise_map.mpr distinct

theorem Accepted.field {o : ℕ} {k : VALUE} {g : Bool} {iv : List (ID × Value)}
    {fields : FieldInfoMap} (h : Accepted sch fi (.obj o k g iv))
    (table : sch.fieldInfoMap fi.klass = some fields) {e : Int16 × FieldInfo}
    (he : e ∈ fields.entries) (hne : ivarGet iv e.2.ivarName ≠ .nil) :
    Accepted sch e.2 (ivarGet iv e.2.ivarName) := by
  refine ⟨?_, ?_, h.numbers.mono (within_ivarGet hne), h.keys.mono (within_ivarGet hne)⟩
  · cases h.conforms with
    | struct _ _ _ _ fields₁ _ table₁ _ held =>
      obtain rfl : fields = fields₁ := Option.some.inj (table.symm.trans table₁)
      exact held e he hne
  · cases h.ordinary with
    | struct _ _ _ _ _ fields₁ table₁ _ held =>
      obtain rfl : fields = fields₁ := Option.some.inj (table.symm.trans table₁)
      exact held e he hne
    | unset _ _ _ _ _ fields₁ table₁ _ _ unset =>
      obtain rfl : fields = fields₁ := Option.some.inj (table.symm.trans table₁)
      exact absurd (unset e he) hne
    | union _ _ _ _ _ fields₁ e₁ table₁ _ _ _ _ _ only held =>
      obtain rfl : fields = fields₁ := Option.some.inj (table.symm.trans table₁)
      by_cases heq : e = e₁
      · rw [heq]
        exact held
      · exact absurd (only e he heq) hne

end Parts

section Keys
variable {C : Type} {mix : HashInput C → C} {sch : Schema} {start : VALUE → ID → Value}

theorem keyCodes_nodup (hmix : Function.Injective mix) {fi : FieldInfo}
    {kvs : List (Value × Value)} (hx : Accepted sch fi (.hash kvs)) :
    (kvs.map fun e => hashCode mix (lookup sch) e.1).Nodup := by
  have hnan : ∀ x ∈ kvs.map Prod.fst, NoNaN x := by
    intro x hmem
    obtain ⟨e, he, rfl⟩ := List.mem_map.mp hmem
    exact hx.numbers.mono fun _ hu => .key he hu
  have hfield : ∀ x ∈ kvs.map Prod.fst, ¬ HashedByField (lookup sch) x := by
    intro x hmem
    obtain ⟨e, he, rfl⟩ := List.mem_map.mp hmem
    exact hx.keys.hashes kvs .refl e he
  have hall := codes_nodup hmix hx.keys_distinct hnan hfield
  rwa [List.map_map] at hall

end Keys

section Copies
variable {C : Type} [DecidableEq C] {mix : HashInput C → C} {sch : Schema}
  {start : VALUE → ID → Value}

/-- The hash and the equality of a copy are those of the value. -/
def Copied (mix : HashInput C → C) (sch : Schema) (x y : Value) : Prop :=
  hashCode mix (lookup sch) y = hashCode mix (lookup sch) x ∧
    ∀ strict, equal mix (lookup sch) strict y x = true

theorem Copied.found {x y : Value} (h : Copied mix sch x y) :
    foundAs mix (lookup sch) y x = true := foundAs_iff.mpr ⟨h.1, h.2 true⟩

theorem entriesEqual_copied {kvs kvs' : List (Value × Value)} {strict : Bool}
    (hnodup : (kvs.map fun e => hashCode mix (lookup sch) e.1).Nodup)
    (size : kvs'.length = kvs.length)
    (hkeys : ∀ p ∈ kvs.zip kvs', Copied mix sch p.1.1 p.2.1) :
    entriesEqual mix (lookup sch) strict kvs' kvs = true ↔
      ∀ p ∈ kvs.zip kvs', equal mix (lookup sch) strict p.2.2 p.1.2 = true := by
  have hfind : ∀ p ∈ kvs.zip kvs',
      kvs.find? (fun e => foundAs mix (lookup sch) p.2.1 e.1) = some p.1 := by
    intro p hp
    have hmem := (List.of_mem_zip (a := p.1) (b := p.2) hp).1
    cases hfound : kvs.find? (fun e => foundAs mix (lookup sch) p.2.1 e.1) with
    | none => exact absurd (hkeys p hp).found (List.find?_eq_none.mp hfound p.1 hmem)
    | some d =>
      obtain ⟨hd, hkey⟩ := mem_of_lookup hfound
      have hcode := (foundAs_iff.mp hkey).1
      rw [(hkeys p hp).1] at hcode
      rw [List.inj_on_of_nodup_map hnodup hmem hd hcode]
  rw [entriesEqual_iff]
  constructor
  · intro h p hp
    obtain ⟨d, hd, hequal⟩ := h p.2 (List.of_mem_zip (a := p.1) (b := p.2) hp).2
    rw [hfind p hp] at hd
    cases hd
    exact hequal
  · intro h e' he'
    obtain ⟨e, he⟩ := exists_mem_zip_right size he'
    exact ⟨e, hfind (e, e') he, h (e, e') he⟩

theorem copied_ary {xs ys : List Value} (size : ys.length = xs.length)
    (h : ∀ p ∈ xs.zip ys, Copied mix sch p.1 p.2) : Copied mix sch (.ary xs) (.ary ys) := by
  refine ⟨?_, fun strict => ?_⟩
  · rw [hashCode, hashCode, elemCodes_eq, elemCodes_eq, map_of_zip size fun p hp => (h p hp).1]
  · rw [equal, equalElems_iff]
    exact List.Forall₂.flip (forall₂_of_zip size fun p hp => (h p hp).2 strict)

theorem copied_set {xs ys : List Value} (size : ys.length = xs.length)
    (h : ∀ p ∈ xs.zip ys, Copied mix sch p.1 p.2) : Copied mix sch (.set xs) (.set ys) := by
  refine ⟨?_, fun strict => ?_⟩
  · rw [hashCode, hashCode, elemCodes_eq, elemCodes_eq, map_of_zip size fun p hp => (h p hp).1]
  · rw [equal, Bool.and_eq_true, beq_iff_eq, elemsFound_iff]
    refine ⟨size, fun y hy => ?_⟩
    obtain ⟨x, hxy⟩ := exists_mem_zip_right size hy
    exact ⟨x, (List.of_mem_zip hxy).1, (h (x, y) hxy).found⟩

theorem copied_hash {kvs kvs' : List (Value × Value)} (size : kvs'.length = kvs.length)
    (hnodup : (kvs.map fun e => hashCode mix (lookup sch) e.1).Nodup)
    (hkeys : ∀ p ∈ kvs.zip kvs', Copied mix sch p.1.1 p.2.1)
    (hvalues : ∀ p ∈ kvs.zip kvs', Copied mix sch p.1.2 p.2.2) :
    Copied mix sch (.hash kvs) (.hash kvs') := by
  refine ⟨?_, fun strict => ?_⟩
  · have hcodes : kvs'.map (entryCode mix (lookup sch)) = kvs.map (entryCode mix (lookup sch)) :=
      map_of_zip size fun p hp => Prod.ext (hkeys p hp).1 (hvalues p hp).1
    rw [hashCode, hashCode, entryCodes_eq, entryCodes_eq, hcodes]
  · rw [equal, Bool.and_eq_true, beq_iff_eq]
    refine ⟨size, (entriesEqual_copied hnodup size hkeys).mpr ?_⟩
    exact fun p hp => (hvalues p hp).2 strict

theorem ownHash_of_not (k : VALUE) {o : ℕ} {g : Bool} {iv : List (ID × Value)}
    (h : ¬ HashedByField (lookup sch) (.obj o k g iv)) : (lookup sch).ownHash k = false :=
  Bool.eq_false_iff.mpr fun hown => h (.own hown)

theorem copied_of_agrees (hmix : Function.Injective mix) {fi : FieldInfo} {x y : Value}
    (h : Agrees sch start id fi x y) : Accepted sch fi x → ¬ HashedByField (lookup sch) x →
      (∀ o, ¬ Sees (lookup sch) o x) → Copied mix sch x y := by
  induction h with
  | int fi n => exact fun _ _ _ => ⟨rfl, fun strict => by simp [equal]⟩
  | bool fi b => exact fun _ _ _ => ⟨rfl, fun strict => by simp [equal]⟩
  | double fi bits =>
    exact fun hx _ _ => ⟨rfl, fun strict => by simp [equal, floatEq, hx.numbers bits .refl]⟩
  | string fi enc bytes =>
    exact fun _ _ _ => ⟨rfl, fun strict => by simp [equal, comparable]⟩
  | list fi e xs ys element size elems ih =>
    intro hx hfield hsees
    refine copied_ary size fun p hp => ?_
    have hmem := (List.of_mem_zip (a := p.1) (b := p.2) hp).1
    exact ih p hp (hx.ary element _ hmem) (fun hf => hfield (.ary hmem hf))
      fun o ho => hsees o (.ary hmem ho)
  | set fi e xs ys element size elems ih =>
    intro hx hfield hsees
    refine copied_set size fun p hp => ?_
    have hmem := (List.of_mem_zip (a := p.1) (b := p.2) hp).1
    exact ih p hp (hx.set element _ hmem) (fun hf => hfield (.set hmem hf))
      fun o ho => hsees o (.set hmem ho)
  | map fi k e kvs kvs' key element size keys values ihk ihv =>
    intro hx hfield hsees
    have hmem : ∀ p ∈ kvs.zip kvs', p.1 ∈ kvs := fun p hp =>
      (List.of_mem_zip (a := p.1) (b := p.2) hp).1
    refine copied_hash size (keyCodes_nodup hmix hx) ?_ ?_
    · exact fun p hp => ihk p hp (hx.hash key element _ (hmem p hp)).1
        (fun hf => hfield (.key (hmem p hp) hf)) fun o ho => hsees o (.key (hmem p hp) ho)
    · exact fun p hp => ihv p hp (hx.hash key element _ (hmem p hp)).2
        (fun hf => hfield (.value (hmem p hp) hf)) fun o ho => hsees o (.value (hmem p hp) ho)
  | struct fi oid oid' eigen ivars ivars' fields table isStruct held rest ih =>
    intro _ hfield hsees
    exact absurd (.struct (ownHash_of_not _ hfield) isStruct) (hsees oid)
  | unset fi oid oid' eigen ivars ivars' fields table isUnion tag rest =>
    intro _ hfield _
    have hown : (lookup sch).ownHash fi.klass = false := ownHash_of_not fi.klass hfield
    have htag : setField ivars' = none := by rw [setField, rest]
    refine ⟨?_, fun strict => ?_⟩
    · rw [id, hashCode_union hown isUnion, hashCode_union hown isUnion, tag, htag]
    · rw [equal_obj, id, if_pos (show (lookup sch).isUnion fi.klass = true from isUnion), tag, htag]
      exact .inr ⟨rfl, rfl, by simp⟩
  | union fi oid oid' eigen ivars ivars' fields e table isUnion member tag tag' held rest ih =>
    intro hx hfield hsees
    have hown : (lookup sch).ownHash fi.klass = false := ownHash_of_not fi.klass hfield
    have hivar := sch.ivarName fi.klass fields table e member
    have hcopied := ih (hx.field table member held.ne_nil.1)
      (fun hf => hfield (.union isUnion tag (hivar ▸ hf)))
      fun o ho => hsees o (.union hown isUnion tag (hivar ▸ ho))
    rw [hivar] at hcopied
    refine ⟨?_, fun strict => ?_⟩
    · rw [id, hashCode_union hown isUnion, hashCode_union hown isUnion, tag, tag']
      dsimp only
      rw [hcopied.1]
    · rw [equal_obj, id, if_pos (show (lookup sch).isUnion fi.klass = true from isUnion), tag, tag']
      refine .inr ⟨rfl, rfl, fun f hf => ?_⟩
      cases hf
      exact hcopied.2 false

theorem sees_of_agrees {fi : FieldInfo} {x y : Value} (h : Agrees sch start id fi x y) {o : ℕ}
    (hsees : Sees (lookup sch) o x) : ∃ o', Sees (lookup sch) o' y := by
  induction h with
  | int | bool | double | string => cases hsees
  | list fi e xs ys element size elems ih =>
    cases hsees with
    | ary hx h =>
      obtain ⟨y, hxy⟩ := exists_mem_zip_left size hx
      obtain ⟨o', ho'⟩ := ih (_, y) hxy h
      exact ⟨o', .ary (List.of_mem_zip hxy).2 ho'⟩
  | set fi e xs ys element size elems ih =>
    cases hsees with
    | set hx h =>
      obtain ⟨y, hxy⟩ := exists_mem_zip_left size hx
      obtain ⟨o', ho'⟩ := ih (_, y) hxy h
      exact ⟨o', .set (List.of_mem_zip hxy).2 ho'⟩
  | map fi k e kvs kvs' key element size keys values ihk ihv =>
    cases hsees with
    | key he h =>
      obtain ⟨e', hee'⟩ := exists_mem_zip_left size he
      obtain ⟨o', ho'⟩ := ihk (_, e') hee' h
      exact ⟨o', .key (List.of_mem_zip hee').2 ho'⟩
    | value he h =>
      obtain ⟨e', hee'⟩ := exists_mem_zip_left size he
      obtain ⟨o', ho'⟩ := ihv (_, e') hee' h
      exact ⟨o', .value (List.of_mem_zip hee').2 ho'⟩
  | struct fi oid oid' eigen ivars ivars' fields table isStruct held rest ih =>
    cases hsees with
    | struct own hk => exact ⟨oid', .struct own hk⟩
    | union _ hk => exact absurd (hk.symm.trans isStruct) (by simp)
  | unset fi oid oid' eigen ivars ivars' fields table isUnion tag rest =>
    cases hsees with
    | struct _ hk => exact absurd (hk.symm.trans isUnion) (by simp)
    | union _ _ hf _ => exact absurd (hf.symm.trans tag) (by simp)
  | union fi oid oid' eigen ivars ivars' fields e table isUnion member tag tag' held rest ih =>
    have hivar := sch.ivarName fi.klass fields table e member
    cases hsees with
    | struct _ hk => exact absurd (hk.symm.trans isUnion) (by simp)
    | union own _ hf h =>
      obtain rfl := Option.some.inj (tag.symm.trans hf)
      rw [← hivar] at h
      obtain ⟨o', ho'⟩ := ih h
      exact ⟨o', .union own isUnion tag' (hivar ▸ ho')⟩

theorem not_found_of_sees (hmix : Function.Injective mix) {fi : FieldInfo} {x y z v w : Value}
    {o : ℕ} (hfresh : Fresh v w) (h : Agrees sch start id fi x y) (hsees : Sees (lookup sch) o x)
    (hy : Within y w) (hz : Within z v) : foundAs mix (lookup sch) y z = false := by
  rw [Bool.eq_false_iff]
  intro hfound
  obtain ⟨o', ho'⟩ := sees_of_agrees h hsees
  have hz' := ho'.of_hashCode hmix (foundAs_iff.mp hfound).1
  exact hfresh o' (objectIds_within hz hz'.mem_objectIds) (objectIds_within hy ho'.mem_objectIds)

/-- The copy is `==` to the value unless this is of the kind that differs. -/
def Matches (mix : HashInput C → C) (sch : Schema) (x y : Value) : Prop :=
  rubyEq mix (lookup sch) y x = true ↔ ¬ Differs mix sch x

theorem ary_matches {xs ys : List Value} (size : ys.length = xs.length)
    (h : ∀ p ∈ xs.zip ys, Matches mix sch p.1 p.2) : Matches mix sch (.ary xs) (.ary ys) := by
  unfold Matches rubyEq
  rw [equal, equalElems_iff]
  constructor
  · intro hequal hdiff
    cases hdiff with
    | ary hx hdiff =>
      obtain ⟨y, hxy⟩ := exists_mem_zip_left size hx
      exact (h _ hxy).mp (List.forall₂_zip hequal.flip hxy) hdiff
  · intro hsame
    refine List.Forall₂.flip (forall₂_of_zip size fun p hp => (h p hp).mpr fun hdiff => ?_)
    exact hsame (.ary (List.of_mem_zip (a := p.1) (b := p.2) hp).1 hdiff)

theorem set_matches (hmix : Function.Injective mix) {fi e : FieldInfo} {xs ys : List Value}
    (element : fi.elementType = some e) (size : ys.length = xs.length)
    (elems : ∀ p ∈ xs.zip ys, Agrees sch start id e p.1 p.2) (hx : Accepted sch fi (.set xs))
    (hfresh : Fresh (.set xs) (.set ys)) : Matches mix sch (.set xs) (.set ys) := by
  unfold Matches rubyEq
  rw [equal, Bool.and_eq_true, beq_iff_eq, elemsFound_iff]
  constructor
  · rintro ⟨-, hfound⟩ hdiff
    cases hdiff with
    | elem hx hsees =>
      obtain ⟨y, hxy⟩ := exists_mem_zip_left size hx
      have hy := (List.of_mem_zip hxy).2
      obtain ⟨z, hz, hyz⟩ := hfound y hy
      rw [not_found_of_sees hmix hfresh (elems _ hxy) hsees (.set hy .refl) (.set hz .refl)] at hyz
      cases hyz
  · intro hsame
    refine ⟨size, fun y hy => ?_⟩
    obtain ⟨x, hxy⟩ := exists_mem_zip_right size hy
    have hmem := (List.of_mem_zip hxy).1
    exact ⟨x, hmem, (copied_of_agrees hmix (elems _ hxy) (hx.set element x hmem)
      (hx.keys.sets xs .refl x hmem) fun o ho => hsame (.elem hmem ho)).found⟩

theorem hash_matches (hmix : Function.Injective mix) {fi k : FieldInfo}
    {kvs kvs' : List (Value × Value)} (size : kvs'.length = kvs.length)
    (keys : ∀ p ∈ kvs.zip kvs', Agrees sch start id k p.1.1 p.2.1)
    (hx : Accepted sch fi (.hash kvs)) (hkey : ∀ kv ∈ kvs, Accepted sch k kv.1)
    (hvalues : ∀ p ∈ kvs.zip kvs', Matches mix sch p.1.2 p.2.2)
    (hfresh : Fresh (.hash kvs) (.hash kvs')) : Matches mix sch (.hash kvs) (.hash kvs') := by
  have hcopied : (∀ o, ∀ e ∈ kvs, ¬ Sees (lookup sch) o e.1) →
      ∀ p ∈ kvs.zip kvs', Copied mix sch p.1.1 p.2.1 := by
    intro hsees p hp
    have hmem := (List.of_mem_zip (a := p.1) (b := p.2) hp).1
    exact copied_of_agrees hmix (keys p hp) (hkey _ hmem) (hx.keys.hashes kvs .refl _ hmem)
      fun o => hsees o p.1 hmem
  have hnodup := keyCodes_nodup hmix hx
  unfold Matches rubyEq
  rw [equal, Bool.and_eq_true, beq_iff_eq]
  constructor
  · rintro ⟨-, hequal⟩ hdiff
    have hsees : ∀ o, ∀ e ∈ kvs, ¬ Sees (lookup sch) o e.1 := by
      intro o e he hsees
      obtain ⟨e', hee'⟩ := exists_mem_zip_left size he
      have he' := (List.of_mem_zip hee').2
      obtain ⟨d, hd, -⟩ := (entriesEqual_iff mix (lookup sch) false kvs' kvs).mp hequal e' he'
      obtain ⟨hd, hfound⟩ := mem_of_lookup hd
      rw [not_found_of_sees hmix hfresh (keys _ hee') hsees (.key he' .refl)
        (.key hd .refl)] at hfound
      cases hfound
    cases hdiff with
    | key he h => exact hsees _ _ he h
    | value he h =>
      obtain ⟨e', hee'⟩ := exists_mem_zip_left size he
      have hall := (entriesEqual_copied hnodup size (hcopied hsees)).mp hequal
      exact (hvalues _ hee').mp (hall _ hee') h
  · intro hsame
    refine ⟨size, (entriesEqual_copied hnodup size (hcopied fun o e he ho =>
      hsame (.key he ho))).mpr fun p hp => (hvalues p hp).mpr fun hdiff => ?_⟩
    exact hsame (.value (List.of_mem_zip (a := p.1) (b := p.2) hp).1 hdiff)

theorem madeIvar_nil {k : VALUE} (hk : sch.Cached k) {name : ID} (h : newIvar sch k name = .nil) :
    madeIvar sch k name = .nil := by
  unfold madeIvar
  rcases newIvars_cases k hk with hnew | hnew
  · rw [hnew]
    rfl
  · rw [hnew]
    exact h

theorem struct_matches {oid oid' : ℕ} {k : VALUE} {g g' : Bool} {ivars ivars' : List (ID × Value)}
    {fields : FieldInfoMap} (table : sch.fieldInfoMap k = some fields)
    (isStruct : sch.isUnion k = false) (hdiff : oid' ≠ oid)
    (held : ∀ e ∈ fields.entries, ivarGet ivars e.2.ivarName ≠ .nil →
      Matches mix sch (ivarGet ivars e.2.ivarName) (ivarGet ivars' e.2.ivarName))
    (rest : ∀ name, (∀ e ∈ fields.entries, e.2.ivarName = name → ivarGet ivars name = .nil) →
      ivarGet ivars' name = madeIvar sch k name)
    (hnil : ∀ name ∈ fieldNames sch k, ivarGet ivars name = .nil → newIvar sch k name = .nil) :
    Matches mix sch (.obj oid k g ivars) (.obj oid' k g' ivars') := by
  have hcached : sch.Cached k := by simp [Schema.Cached, table]
  have hlost : ∀ {name : ID}, (∀ e ∈ fields.entries, e.2.ivarName ≠ name) →
      ivarGet ivars' name = madeIvar sch k name := fun hnone =>
    rest _ fun e he hname => absurd hname (hnone e he)
  unfold Matches rubyEq
  rw [equal_obj, if_neg (by simp [lookup, isStruct])]
  constructor
  · intro h hd
    have hall := (h.resolve_left hdiff).2
    cases hd with
    | struct _ table' he hname hd =>
      obtain rfl := Option.some.inj (table.symm.trans table')
      have hne : ivarGet ivars _ ≠ .nil := fun hnil => by
        rw [hnil] at hd
        cases hd
      exact (held _ he hne).mp (hall _ hname) hd
    | lost _ table' hname hnone hd =>
      obtain rfl := Option.some.inj (table.symm.trans table')
      have hequal := hall _ hname
      rw [hlost hnone] at hequal
      exact absurd (hequal.symm.trans hd) (by simp)
    | union hk => exact absurd (hk.symm.trans isStruct) (by simp)
  · intro hsame
    refine .inr ⟨rfl, fun name hname => ?_⟩
    by_cases hplace : ∃ e ∈ fields.entries, e.2.ivarName = name
    · obtain ⟨e, he, rfl⟩ := hplace
      by_cases hne : ivarGet ivars e.2.ivarName = .nil
      · rw [rest _ fun e' _ hsame => hsame ▸ hne, madeIvar_nil hcached (hnil _ hname hne), hne]
        simp [equal]
      · exact (held e he hne).mpr fun hd => hsame (.struct isStruct table he hname hd)
    · have hnone : ∀ e ∈ fields.entries, e.2.ivarName ≠ name := fun e he heq =>
        hplace ⟨e, he, heq⟩
      rw [hlost hnone]
      by_contra hfalse
      exact hsame (.lost isStruct table hname hnone (Bool.not_eq_true _ ▸ hfalse))

theorem rubyEq_of_agrees (hmix : Function.Injective mix) {fi : FieldInfo} {x y : Value}
    (h : Agrees sch (madeIvar sch) id fi x y) : Accepted sch fi x → NilsKept sch x → Fresh x y →
      Matches mix sch x y := by
  induction h with
  | int fi n =>
    intro _ _ _
    exact iff_of_true (by simp [rubyEq, equal]) fun hd => by cases hd
  | bool fi b =>
    intro _ _ _
    exact iff_of_true (by simp [rubyEq, equal]) fun hd => by cases hd
  | double fi bits =>
    intro hx _ _
    exact iff_of_true (by simp [rubyEq, equal, floatEq, hx.numbers bits .refl])
      fun hd => by cases hd
  | string fi enc bytes =>
    intro _ _ _
    exact iff_of_true (by simp [rubyEq, equal, comparable]) fun hd => by cases hd
  | list fi e xs ys element size elems ih =>
    intro hx hnil hfresh
    refine ary_matches size fun p hmem => ?_
    obtain ⟨hxs, hys⟩ := List.of_mem_zip (a := p.1) (b := p.2) hmem
    exact ih p hmem (hx.ary element _ hxs)
      (hnil.mono fun _ hu => .ary hxs hu)
      (hfresh.mono (fun _ hu => .ary hxs hu) fun _ hu => .ary hys hu)
  | set fi e xs ys element size elems ih =>
    intro hx _ hfresh
    exact set_matches hmix element size elems hx hfresh
  | map fi k e kvs kvs' key element size keys values ihk ihv =>
    intro hx hnil hfresh
    have hentry := hx.hash key element
    refine hash_matches hmix size keys hx (fun kv hkv => (hentry kv hkv).1) (fun p hmem => ?_)
      hfresh
    obtain ⟨he, he'⟩ := List.of_mem_zip (a := p.1) (b := p.2) hmem
    exact ihv p hmem (hentry _ he).2
      (hnil.mono fun _ hu => .value he hu)
      (hfresh.mono (fun _ hu => .value he hu) fun _ hu => .value he' hu)
  | struct fi oid oid' eigen ivars ivars' fields table isStruct held rest ih =>
    intro hx hnil hfresh
    refine struct_matches table isStruct hfresh.oid_ne (fun e he hne => ?_) rest
      (hnil oid fi.klass eigen ivars .refl isStruct)
    exact ih e he hne (hx.field table he hne)
      (hnil.mono (within_ivarGet hne))
      (hfresh.mono (within_ivarGet hne) (within_ivarGet (held e he hne).ne_nil.2))
  | unset fi oid oid' eigen ivars ivars' fields table isUnion tag rest =>
    intro _ _ _
    have htag : setField ivars' = none := by rw [setField, rest]
    unfold Matches rubyEq
    rw [equal_obj, id, if_pos (show (lookup sch).isUnion fi.klass = true from isUnion), tag, htag]
    refine iff_of_true (.inr ⟨rfl, rfl, by simp⟩) fun hd => ?_
    cases hd with
    | struct hk => exact absurd (hk.symm.trans isUnion) (by simp)
    | lost hk => exact absurd (hk.symm.trans isUnion) (by simp)
    | union _ hf => exact absurd (hf.symm.trans tag) (by simp)
  | union fi oid oid' eigen ivars ivars' fields e table isUnion member tag tag' held rest ih =>
    intro hx hnil hfresh
    have hne := held.ne_nil.1
    have hvalue := ih (hx.field table member hne)
      (hnil.mono (within_ivarGet hne))
      (hfresh.mono (within_ivarGet hne) (within_ivarGet held.ne_nil.2))
    rw [sch.ivarName fi.klass fields table e member] at hvalue
    unfold Matches rubyEq at hvalue ⊢
    rw [equal_obj, id, if_pos (show (lookup sch).isUnion fi.klass = true from isUnion), tag, tag']
    constructor
    · intro h hd
      have hequal := (h.resolve_left hfresh.oid_ne).2.2 _ rfl
      cases hd with
      | struct hk => exact absurd (hk.symm.trans isUnion) (by simp)
      | lost hk => exact absurd (hk.symm.trans isUnion) (by simp)
      | union _ hf hd =>
        obtain rfl := Option.some.inj (tag.symm.trans hf)
        exact hvalue.mp hequal hd
    · intro hsame
      refine .inr ⟨rfl, rfl, fun f hf => ?_⟩
      cases hf
      exact hvalue.mpr fun hd => hsame (.union isUnion tag hd)

end Copies

open SerializerRead SerializerWrite SerializerWire SerializerRoundTrip BinaryProtocol Loading

theorem rubyEql_obj {C : Type} [DecidableEq C] (mix : HashInput C → C) (cls : Lookup) (o : ℕ)
    (k : VALUE) (g : Bool) (iv : List (ID × Value)) (w : Value) :
    rubyEql mix cls (.obj o k g iv) w = rubyEq mix cls (.obj o k g iv) w := by
  cases w <;> rfl

/-- An object of the class as it is before it is written. -/
structure Original (sch : Schema) (klass : VALUE) (x : Value) : Prop where
  known : sch.Cached klass
  ordinary : Ordinary sch (classInfo klass) x
  numbers : NoNaN x
  keys : HashedByContent (lookup sch) x
  nils : NilsKept sch x
  plain : Plain sch x

def usObject (oid : ℕ) : Value :=
  .obj oid 8 false [("@id_s", .str .binary [97]), ("@string_set", .set [.str .utf8 [97]])]

def unObject (oid : ℕ) : Value :=
  .obj oid 16 false [("@setfield", .sym "id_s"), ("@id_s", .str .utf8 [100])]

theorem within_usObject {u : Value} {oid : ℕ} (h : Within u (usObject oid)) : u = usObject oid ∨
    u = .str .binary [97] ∨ u = .str .utf8 [97] ∨ u = .set [.str .utf8 [97]] := by
  have hstr : ∀ {w : Value} {enc}, Within u w → w = .str enc [97] → u = .str enc [97] := by
    rintro w enc h rfl
    cases h
    rfl
  cases h with
  | refl => exact .inl rfl
  | ivar he h =>
    rcases List.mem_cons.mp he with rfl | he
    · exact .inr (.inl (hstr h rfl))
    · obtain rfl := List.mem_singleton.mp he
      cases h with
      | refl => exact .inr (.inr (.inr rfl))
      | set hx h => exact .inr (.inr (.inl (hstr h (List.mem_singleton.mp hx))))

theorem within_unObject {u : Value} {oid : ℕ} (h : Within u (unObject oid)) : u = unObject oid ∨
    u = .sym "id_s" ∨ u = .str .utf8 [100] := by
  cases h with
  | refl => exact .inl rfl
  | ivar he h =>
    rcases List.mem_cons.mp he with rfl | he
    · cases h
      exact .inr (.inl rfl)
    · obtain rfl := List.mem_singleton.mp he
      cases h
      exact .inr (.inr rfl)

theorem fieldNames_us :
    (lookup userProgram.schema).fields 8 = ["@id_i32", "@id_s", "@string_set", "@int_set"] := by
  decide +kernel

theorem isUnion_us : (lookup userProgram.schema).isUnion 8 = false := by decide +kernel

theorem ownHash_us : (lookup userProgram.schema).ownHash 8 = false := by decide +kernel

theorem isUnion_un : (lookup userProgram.schema).isUnion 16 = true := by decide +kernel

theorem ownHash_un : (lookup userProgram.schema).ownHash 16 = false := by decide +kernel

theorem answers_of_unshadowed {c : RubyClass} (hclass : c.superclass ≠ .applicationException)
    (h : ∀ m ∈ calledMethods, m ∉ c.fieldNames) (iv : List (ID × Value)) : Answers c iv where
  compares := hclass
  accessors := ⟨h _ (by decide), h _ (by decide)⟩
  union _ := by
    refine ⟨h _ (by decide), h _ (by decide), h _ (by decide), fun m hm hfield => ?_⟩
    have hcalled : ∀ m ∈ ["hash", "get_value"], m ∈ calledMethods := by decide
    exact absurd hfield (h m (hcalled m hm))

theorem plain_of_defs (p : Program) (h : ∀ d ∈ p.defs, d.2.superclass ≠ .applicationException ∧
      ∀ m ∈ calledMethods, m ∉ d.2.fieldNames) {v : Value}
    (hv : ∀ o k g iv, Within (.obj o k g iv) v → k ∈ p.defs.map Prod.fst) : Plain p.schema v := by
  intro o k g iv hin
  obtain ⟨c, hc⟩ := exists_class p ((schema_cached_iff p k).mpr (hv o k g iv hin))
  have hall : ∀ c ∈ p.schema.findClass k, c.superclass ≠ .applicationException ∧
      ∀ m ∈ calledMethods, m ∉ c.fieldNames := class_of_defs p h k
  have hdef := hall c hc
  exact ⟨c, hc, answers_of_unshadowed hdef.1 hdef.2 iv⟩

theorem userProgram_plain {v : Value}
    (hv : ∀ o k g iv, Within (.obj o k g iv) v → k ∈ userProgram.defs.map Prod.fst) :
    Plain userProgram.schema v := plain_of_defs userProgram (by decide +kernel) hv

theorem equal_str {C : Type} [DecidableEq C] (mix : HashInput C → C) (cls : Lookup)
    (strict : Bool) (enc : Encoding) (bytes : List UInt8) :
    equal mix cls strict (.str enc bytes) (.str enc bytes) = true := by
  simp [equal, comparable]

theorem usObjects_apart {C : Type} [DecidableEq C] {mix : HashInput C → C}
    (hmix : Function.Injective mix) :
    rubyEql mix (lookup userProgram.schema) (usObject 0) (usObject 1) = true ∧
      hashCode mix (lookup userProgram.schema) (usObject 0) ≠
        hashCode mix (lookup userProgram.schema) (usObject 1) := by
  constructor
  · rw [rubyEql, usObject, usObject, equal_obj, if_neg (by simp [isUnion_us]), fieldNames_us]
    refine .inr ⟨rfl, ?_⟩
    simp only [List.forall_mem_cons, List.not_mem_nil, IsEmpty.forall_iff, implies_true, and_true]
    refine ⟨by simp [ivarGet, equal], equal_str .., ?_, by simp [ivarGet, equal]⟩
    change equal mix _ _ (.set _) (.set _) = true
    rw [equal, Bool.and_eq_true, elemsFound_iff]
    refine ⟨rfl, fun x hx => ⟨x, hx, ?_⟩⟩
    obtain rfl := List.mem_singleton.mp hx
    exact foundAs_iff.mpr ⟨rfl, equal_str ..⟩
  · rw [usObject, usObject, hashCode_struct ownHash_us isUnion_us,
      hashCode_struct ownHash_us isUnion_us, hmix.ne_iff]
    simp

theorem unObject_instances {C : Type} (mix : HashInput C → C) (oid : ℕ) :
    Instances mix userProgram.schema (unObject oid) where
  sets xs h := by rcases within_unObject h with h | h | h <;> cases h
  hashes kvs h := by rcases within_unObject h with h | h | h <;> cases h
  own o k g iv h hown := by
    rcases within_unObject h with h | h | h <;> cases h
    exact absurd (hown.symm.trans ownHash_un) (by simp)
  plain := by
    apply userProgram_plain
    intro o k g iv h
    rcases within_unObject h with h | h | h <;> cases h
    decide

theorem usObject_original : Original userProgram.schema 8 (usObject 7) where
  known := by decide +kernel
  ordinary := ordinary_of_isOrdinary _ _ (by decide +kernel)
  numbers d hd := by rcases within_usObject hd with h | h | h | h <;> cases h
  keys := by
    refine ⟨fun xs hin e he hfield => ?_, fun kvs hin => ?_⟩
    · rcases within_usObject hin with h | h | h | h <;> cases h
      obtain rfl := List.mem_singleton.mp he
      cases hfield
    · rcases within_usObject hin with h | h | h | h <;> cases h
  nils o k g iv hin _ name hname hnil := by
    rcases within_usObject hin with h | h | h | h <;> cases h
    change name ∈ (lookup userProgram.schema).fields 8 at hname
    rw [fieldNames_us] at hname
    have hall : ∀ name ∈ ["@id_i32", "@id_s", "@string_set", "@int_set"],
        (ivarGet [("@id_s", Value.str .binary [97]), ("@string_set", .set [.str .utf8 [97]])]
          name).isNil = true → (newIvar userProgram.schema 8 name).isNil = true := by
      decide +kernel
    rw [← Value.isNil_eq_true] at hnil ⊢
    exact hall name hname hnil
  plain := by
    apply userProgram_plain
    intro o k g iv h
    rcases within_usObject h with h | h | h | h <;> cases h
    decide

theorem usObject_same {C : Type} [DecidableEq C] {mix : HashInput C → C} :
    ¬ Differs mix userProgram.schema (usObject 7) := by
  intro hd
  cases hd with
  | @struct _ _ _ _ fields e _ table he hname hd =>
    change e.2.ivarName ∈ (lookup userProgram.schema).fields 8 at hname
    rw [fieldNames_us] at hname
    simp only [List.mem_cons, List.not_mem_nil, or_false] at hname
    rcases hname with hname | hname | hname | hname
    · rw [hname] at hd
      cases hd
    · rw [hname] at hd
      cases hd
    · rw [hname] at hd
      cases hd with
      | elem hx hsees =>
        obtain rfl := List.mem_singleton.mp hx
        cases hsees
    · rw [hname] at hd
      cases hd
  | @lost _ _ _ _ fields name _ table hname hlost _ =>
    have hall : ∀ fields ∈ userProgram.schema.fieldInfoMap 8,
        ∀ name ∈ (lookup userProgram.schema).fields 8,
          ∃ e ∈ fields.entries, e.2.ivarName = name := by decide +kernel
    obtain ⟨e, he, heq⟩ := hall fields table name hname
    exact hlost e he heq
  | union hk => exact absurd (hk.symm.trans isUnion_us) (by simp)

end Sparsam.DecodedCopies
