import Mathlib.Data.Countable.Basic
import Mathlib.Data.Multiset.MapFold
import Mathlib.Logic.Equiv.List
import Mathlib.Tactic.DeriveCountable
import Sparsam.ListPairing
import Sparsam.SerializerRoundTrip

set_option autoImplicit false

/-!
# Equal objects and their hashes

`Sparsam::Struct` compares its fields and keeps the `hash` of `Object`, which is
the identity; `Sparsam::Union` compares and hashes what it holds. So objects
that are `==` have one hash only where they share their structs. A field named
`hash` has a reader of this name, which Ruby finds first.
-/
namespace Sparsam.ObjectHashes
open ListPairing WireProtocol RubyRuntime FieldInfoCache ObjectAgreement

section Countable

instance countableEncoding : Countable Encoding := by
  refine Function.Injective.countable (f := fun e : Encoding => match e with
    | .utf8 => 0
    | .binary => 1
    | .other i => i + 2) fun e e' h => ?_
  cases e <;> cases e' <;> simp_all

instance countableUInt8 : Countable UInt8 :=
  Function.Injective.countable (f := UInt8.toNat) fun _ _ h => UInt8.toNat_inj.mp h

instance countableUInt64 : Countable UInt64 :=
  Function.Injective.countable (f := UInt64.toNat) fun _ _ h => UInt64.toNat_inj.mp h

instance countableChar : Countable Char :=
  Function.Injective.countable (f := Char.toNat) fun _ _ h => Char.toNat_inj.mp h

instance countableString : Countable String :=
  Function.Injective.countable (f := String.toList) fun _ _ h => String.toList_inj.mp h

instance countableID : Countable ID := countableString

instance countableVALUE : Countable VALUE := inferInstanceAs (Countable ℕ)

end Countable

/-- What `==` and `hash` find at a class. -/
structure Lookup where
  isUnion : VALUE → Bool
  /-- The instance variables of the fields that a struct compares. -/
  fields : VALUE → List ID
  /-- A field is named `hash`. -/
  ownHash : VALUE → Bool

/-- What a `hash` method mixes, with the hashes of the parts for the parts. -/
inductive HashInput (C : Type) where
  | nil
  | bool (b : Bool)
  | int (n : ℤ)
  | float (key : UInt64)
  | sym (name : ID)
  /-- The encoding counts for strings that are not ASCII. -/
  | str (enc : Option Encoding) (bytes : List UInt8)
  | ary (elems : List C)
  | set (elems : Multiset C)
  | hash (entries : Multiset (C × C))
  /-- `Object#hash` -/
  | object (oid : ℕ)
  /-- `[self.class.name, @setfield, get_value].hash` -/
  | union (klass : VALUE) (setfield : Option ID) (value : C)
  /-- The reader of a field `hash`. -/
  | own (value : C)
  | klass (k : VALUE)
  | foreign (oid : ℕ)
deriving Countable

theorem exists_injective_mix : ∃ mix : HashInput ℕ → ℕ, Function.Injective mix :=
  exists_injective_nat (HashInput ℕ)

section Hashes
variable {C : Type} (mix : HashInput C → C) (cls : Lookup)

mutual
/-- `hash` -/
def hashCode : Value → C
  | .nil => mix .nil
  | .bool b => mix (.bool b)
  | .int n => mix (.int n)
  | .float d => mix (.float (floatKey d))
  | .sym s => mix (.sym s)
  | .str enc bytes => mix (.str (if bytes.all (· < 128) then none else some enc) bytes)
  | .ary xs => mix (.ary (elemCodes xs))
  | .set xs => mix (.set (elemCodes xs))
  | .hash kvs => mix (.hash (entryCodes kvs))
  | .obj o k _ iv =>
    if cls.ownHash k then mix (.own (codeAt "@hash" iv))
    else if cls.isUnion k then
      mix (.union k (setField iv) (match setField iv with
        | none => mix .nil
        | some f => codeAt ("@" ++ f) iv))
    else mix (.object o)
  | .klass k => mix (.klass k)
  | .foreign o _ => mix (.foreign o)

def elemCodes : List Value → List C
  | [] => []
  | x :: xs => hashCode x :: elemCodes xs

def entryCodes : List (Value × Value) → List (C × C)
  | [] => []
  | (k, v) :: kvs => (hashCode k, hashCode v) :: entryCodes kvs

def codeAt (name : ID) : List (ID × Value) → C
  | [] => mix .nil
  | (n, x) :: rest => if n = name then hashCode x else codeAt name rest
end

theorem elemCodes_eq (xs : List Value) :
    elemCodes mix cls xs = xs.map (hashCode mix cls) := by
  induction xs with
  | nil => rfl
  | cons x xs ih => rw [elemCodes, ih, List.map_cons]

def entryCode (e : Value × Value) : C × C := (hashCode mix cls e.1, hashCode mix cls e.2)

theorem entryCodes_eq (kvs : List (Value × Value)) : entryCodes mix cls kvs =
    kvs.map (entryCode mix cls) := by
  induction kvs with
  | nil => rfl
  | cons e kvs ih =>
    obtain ⟨k, v⟩ := e
    rw [entryCodes, ih, List.map_cons, entryCode]

theorem codeAt_eq (name : ID) (iv : List (ID × Value)) :
    codeAt mix cls name iv = hashCode mix cls (ivarGet iv name) := by
  induction iv with
  | nil => rfl
  | cons e iv ih =>
    obtain ⟨n, x⟩ := e
    unfold codeAt ivarGet
    split
    · rfl
    · exact ih

/-- What goes into the hash of a value. -/
def hashInput : Value → HashInput C
  | .nil => .nil
  | .bool b => .bool b
  | .int n => .int n
  | .float d => .float (floatKey d)
  | .sym s => .sym s
  | .str enc bytes => .str (if bytes.all (· < 128) then none else some enc) bytes
  | .ary xs => .ary (elemCodes mix cls xs)
  | .set xs => .set (elemCodes mix cls xs)
  | .hash kvs => .hash (entryCodes mix cls kvs)
  | .obj o k _ iv =>
    if cls.ownHash k then .own (codeAt mix cls "@hash" iv)
    else if cls.isUnion k then
      .union k (setField iv) (match setField iv with
        | none => mix .nil
        | some f => codeAt mix cls ("@" ++ f) iv)
    else .object o
  | .klass k => .klass k
  | .foreign o _ => .foreign o

theorem hashCode_eq (v : Value) : hashCode mix cls v = mix (hashInput mix cls v) := by
  cases v with
  | obj o k g iv =>
    rw [hashCode, hashInput]
    split
    · rfl
    · split <;> rfl
  | _ => rfl

theorem hashCode_obj (o : ℕ) (k : VALUE) (g : Bool) (iv : List (ID × Value)) :
    hashCode mix cls (.obj o k g iv) =
      if cls.ownHash k then mix (.own (hashCode mix cls (ivarGet iv "@hash")))
      else if cls.isUnion k then
        mix (.union k (setField iv) (match setField iv with
          | none => mix .nil
          | some f => hashCode mix cls (ivarGet iv ("@" ++ f))))
      else mix (.object o) := by
  rw [hashCode]
  simp only [codeAt_eq]

end Hashes

/-- The integer that a double is, if it is one. -/
def floatInteger (d : UInt64) : Option ℤ :=
  let exponent := d.toNat / 2 ^ 52 % 2 ^ 11
  let fraction := d.toNat % 2 ^ 52
  let mantissa := if exponent = 0 then fraction else 2 ^ 52 + fraction
  let num := mantissa * 2 ^ (max exponent 1 - 1075)
  let den := 2 ^ (1075 - max exponent 1)
  if exponent = 2047 ∨ num % den ≠ 0 then none
  else some (if d.toNat / 2 ^ 63 = 0 then (num / den : ℕ) else -(num / den : ℕ))

section Equality
variable {C : Type} [DecidableEq C] (mix : HashInput C → C) (cls : Lookup)

mutual
/-- `==`, and `eql?` where it is strict: this tells an integer from a double. Objects have
    one method for both. Keys are looked up by `hash` and `eql?`. -/
def equal (strict : Bool) : Value → Value → Bool
  | .nil, w => w.isNil
  | .bool b, .bool b' => b == b'
  | .int n, .int n' => n == n'
  | .int n, .float d => !strict && floatInteger d == some n
  | .float d, .int n => !strict && floatInteger d == some n
  | .float d, .float d' => floatEq d d'
  | .sym s, .sym s' => s == s'
  | .str e b, .str e' b' => b == b' && comparable e e' b
  | .ary xs, .ary ys => equalElems strict xs ys
  | .set xs, .set ys => xs.length == ys.length && elemsFound xs ys
  | .hash kvs, .hash kvs' => kvs.length == kvs'.length && entriesEqual strict kvs kvs'
  | .obj o k _ iv, .obj o' k' _ iv' =>
    o == o' || k == k' &&
      if cls.isUnion k then
        setField iv == setField iv' &&
          match setField iv with
          | none => true
          | some f => equalAt ("@" ++ f) iv (ivarGet iv' ("@" ++ f))
      else (cls.fields k).all fun name => equalAt name iv (ivarGet iv' name)
  | .klass k, .klass k' => k == k'
  | .foreign o _, .foreign o' _ => o == o'
  | _, _ => false
termination_by structural v => v

def equalElems (strict : Bool) : List Value → List Value → Bool
  | [], [] => true
  | x :: xs, y :: ys => equal strict x y && equalElems strict xs ys
  | _, _ => false
termination_by structural xs => xs

/-- Every element is found in the other Set. -/
def elemsFound : List Value → List Value → Bool
  | [], _ => true
  | x :: xs, ys =>
    ys.any (fun y => hashCode mix cls x == hashCode mix cls y && equal true x y) &&
      elemsFound xs ys
termination_by structural xs => xs

/-- Every key is found in the other Hash, with an equal value. -/
def entriesEqual (strict : Bool) : List (Value × Value) → List (Value × Value) → Bool
  | [], _ => true
  | (k, v) :: kvs, kvs' =>
    (match kvs'.find? fun e =>
        hashCode mix cls k == hashCode mix cls e.1 && equal true k e.1 with
      | none => false
      | some e => equal strict v e.2) && entriesEqual strict kvs kvs'
termination_by structural kvs => kvs

def equalAt (name : ID) : List (ID × Value) → Value → Bool
  | [], w => w.isNil
  | (n, x) :: rest, w => if n = name then equal false x w else equalAt name rest w
termination_by structural iv => iv
end

def rubyEq (a b : Value) : Bool := equal mix cls false a b

def rubyEql (a b : Value) : Bool := equal mix cls true a b

/-- The same element of a Set, the same key of a Hash. -/
def foundAs (a b : Value) : Bool :=
  hashCode mix cls a == hashCode mix cls b && rubyEql mix cls a b

end Equality

section Parts
variable {C : Type} [DecidableEq C] (mix : HashInput C → C) (cls : Lookup)

theorem equalAt_eq (name : ID) (iv : List (ID × Value)) (w : Value) :
    equalAt mix cls name iv w = equal mix cls false (ivarGet iv name) w := by
  induction iv with
  | nil =>
    unfold equalAt ivarGet equal
    rfl
  | cons e iv ih =>
    obtain ⟨n, x⟩ := e
    unfold equalAt ivarGet
    split
    · rfl
    · exact ih

theorem equalElems_iff (strict : Bool) (xs ys : List Value) :
    equalElems mix cls strict xs ys = true ↔
      List.Forall₂ (fun x y => equal mix cls strict x y = true) xs ys := by
  induction xs generalizing ys with
  | nil => cases ys <;> simp [equalElems]
  | cons x xs ih => cases ys <;> simp [equalElems, ih]

theorem elemsFound_iff (xs ys : List Value) : elemsFound mix cls xs ys = true ↔
    ∀ x ∈ xs, ∃ y ∈ ys, foundAs mix cls x y = true := by
  induction xs with
  | nil => simp [elemsFound]
  | cons x xs ih =>
    rw [elemsFound, Bool.and_eq_true, ih, List.any_eq_true, List.forall_mem_cons]
    rfl

theorem entriesEqual_iff (strict : Bool) (kvs kvs' : List (Value × Value)) :
    entriesEqual mix cls strict kvs kvs' = true ↔ ∀ e ∈ kvs, ∃ e',
      kvs'.find? (fun e' => foundAs mix cls e.1 e'.1) = some e' ∧
        equal mix cls strict e.2 e'.2 = true := by
  induction kvs with
  | nil => simp [entriesEqual]
  | cons e kvs ih =>
    obtain ⟨k, v⟩ := e
    rw [entriesEqual, Bool.and_eq_true, ih, List.forall_mem_cons]
    refine and_congr_left fun _ => ?_
    change (match kvs'.find? (fun e' => foundAs mix cls k e'.1) with
      | none => false
      | some e => equal mix cls strict v e.2) = true ↔ _
    cases kvs'.find? (fun e' => foundAs mix cls k e'.1) <;> simp

theorem equal_obj (strict : Bool) (o o' : ℕ) (k k' : VALUE) (g g' : Bool)
    (iv iv' : List (ID × Value)) :
    equal mix cls strict (.obj o k g iv) (.obj o' k' g' iv') = true ↔ o = o' ∨ k = k' ∧
      if cls.isUnion k then setField iv = setField iv' ∧ ∀ f, setField iv = some f →
        equal mix cls false (ivarGet iv ("@" ++ f)) (ivarGet iv' ("@" ++ f)) = true
      else ∀ name ∈ cls.fields k,
        equal mix cls false (ivarGet iv name) (ivarGet iv' name) = true := by
  rw [equal]
  simp only [equalAt_eq, Bool.or_eq_true, Bool.and_eq_true, beq_iff_eq]
  refine or_congr_right (and_congr_right fun _ => ?_)
  split
  · cases setField iv <;> simp
  · simp

end Parts

/-- A value is the other one or inside it. -/
inductive Within (u : Value) : Value → Prop where
  | refl : Within u u
  | ary {xs : List Value} {x : Value} (hx : x ∈ xs) (h : Within u x) : Within u (.ary xs)
  | set {xs : List Value} {x : Value} (hx : x ∈ xs) (h : Within u x) : Within u (.set xs)
  | key {kvs : List (Value × Value)} {e : Value × Value} (he : e ∈ kvs) (h : Within u e.1) :
      Within u (.hash kvs)
  | value {kvs : List (Value × Value)} {e : Value × Value} (he : e ∈ kvs) (h : Within u e.2) :
      Within u (.hash kvs)
  | ivar {o : ℕ} {k : VALUE} {g : Bool} {iv : List (ID × Value)} {e : ID × Value} (he : e ∈ iv)
      (h : Within u e.2) : Within u (.obj o k g iv)

/-- One identity is one object, with one class and one set of variables. -/
def OneHeap (v w : Value) : Prop :=
  ∀ o k g iv k' g' iv', Within (.obj o k g iv) v → Within (.obj o k' g' iv') w → k = k' ∧ iv = iv'

theorem OneHeap.mono {v w v' w' : Value} (h : OneHeap v w) (hv : ∀ u, Within u v' → Within u v)
    (hw : ∀ u, Within u w' → Within u w) : OneHeap v' w' :=
  fun o k g iv k' g' iv' h₁ h₂ => h o k g iv k' g' iv' (hv _ h₁) (hw _ h₂)

section Containers
variable {C : Type} (mix : HashInput C → C) (cls : Lookup)

/-- A field `hash` is an Integer, as Ruby wants it where it hashes the object. -/
def OwnHashes (v : Value) : Prop :=
  ∀ o k g iv, Within (.obj o k g iv) v → cls.ownHash k = true → ∃ n, ivarGet iv "@hash" = .int n

/-- Every Set and Hash has each element and each key once, and there is a hash of each. -/
structure Proper (v : Value) : Prop where
  sets : ∀ xs, Within (.set xs) v → (xs.map (hashCode mix cls)).Nodup
  hashes : ∀ kvs, Within (.hash kvs) v → (kvs.map fun e => hashCode mix cls e.1).Nodup
  own : OwnHashes cls v

variable {mix cls}

theorem Proper.mono {v v' : Value} (h : Proper mix cls v)
    (hv : ∀ u, Within u v' → Within u v) : Proper mix cls v' :=
  ⟨fun xs hxs => h.sets xs (hv _ hxs), fun kvs hkvs => h.hashes kvs (hv _ hkvs),
    fun o k g iv hu => h.own o k g iv (hv _ hu)⟩

end Containers

section Sharing
variable {C : Type} [DecidableEq C] (mix : HashInput C → C) (cls : Lookup)

mutual
/-- Where equal values are hashed, no integer stands for a double and their structs are the
    same objects. What is found in a Set or as a key has its hash anyway. -/
def Shared : Value → Value → Prop
  | .int _, .float _ | .float _, .int _ => False
  | .ary xs, .ary ys => SharedElems xs ys
  | .hash kvs, .hash kvs' => SharedEntries kvs kvs'
  | .obj o k _ iv, .obj o' _ _ iv' =>
    o = o' ∨ if cls.ownHash k then ivarGet iv "@hash" = ivarGet iv' "@hash"
      else cls.isUnion k = true ∧ ∀ f, setField iv = some f →
        SharedAt ("@" ++ f) iv (ivarGet iv' ("@" ++ f))
  | _, _ => True
termination_by structural v => v

def SharedElems : List Value → List Value → Prop
  | x :: xs, y :: ys => Shared x y ∧ SharedElems xs ys
  | _, _ => True
termination_by structural xs => xs

/-- For the two values of one key. -/
def SharedEntries : List (Value × Value) → List (Value × Value) → Prop
  | [], _ => True
  | (k, v) :: kvs, kvs' =>
    (∀ e ∈ kvs', rubyEql mix cls k e.1 = true → Shared k e.1 → Shared v e.2) ∧
      SharedEntries kvs kvs'
termination_by structural kvs => kvs

def SharedAt (name : ID) : List (ID × Value) → Value → Prop
  | [], _ => True
  | (n, x) :: rest, w => if n = name then Shared x w else SharedAt name rest w
termination_by structural iv => iv
end

theorem sharedEntries_iff (kvs kvs' : List (Value × Value)) :
    SharedEntries mix cls kvs kvs' ↔ ∀ e ∈ kvs, ∀ e' ∈ kvs',
      rubyEql mix cls e.1 e'.1 = true → Shared mix cls e.1 e'.1 →
        Shared mix cls e.2 e'.2 := by
  induction kvs with
  | nil => simp [SharedEntries]
  | cons e kvs ih =>
    obtain ⟨k, v⟩ := e
    rw [SharedEntries, ih, List.forall_mem_cons]

theorem sharedAt_iff (name : ID) (iv : List (ID × Value)) (w : Value) :
    SharedAt mix cls name iv w ↔ Shared mix cls (ivarGet iv name) w := by
  induction iv with
  | nil => simp [SharedAt, ivarGet, Shared]
  | cons e iv ih =>
    obtain ⟨n, x⟩ := e
    unfold SharedAt ivarGet
    split
    · rfl
    · exact ih

theorem shared_obj (o o' : ℕ) (k k' : VALUE) (g g' : Bool) (iv iv' : List (ID × Value)) :
    Shared mix cls (.obj o k g iv) (.obj o' k' g' iv') ↔ o = o' ∨
      if cls.ownHash k then ivarGet iv "@hash" = ivarGet iv' "@hash"
      else cls.isUnion k = true ∧ ∀ f, setField iv = some f →
        Shared mix cls (ivarGet iv ("@" ++ f)) (ivarGet iv' ("@" ++ f)) := by
  rw [Shared]
  simp only [sharedAt_iff]

end Sharing

section SharingLemmas
variable {C : Type} [DecidableEq C] {mix : HashInput C → C} {cls : Lookup}

theorem foundAs_iff {a b : Value} : foundAs mix cls a b = true ↔
    hashCode mix cls a = hashCode mix cls b ∧ equal mix cls true a b = true := by
  unfold foundAs rubyEql
  rw [Bool.and_eq_true, beq_iff_eq]

theorem mem_of_lookup {k : Value} {kvs : List (Value × Value)} {e : Value × Value}
    (h : kvs.find? (fun e => foundAs mix cls k e.1) = some e) :
    e ∈ kvs ∧ foundAs mix cls k e.1 = true := by
  have hsome := List.find?_some h
  exact ⟨List.mem_of_find?_eq_some h, hsome⟩

theorem within_ivarGet {o : ℕ} {k : VALUE} {g : Bool} {iv : List (ID × Value)} {name : ID}
    (hne : ivarGet iv name ≠ .nil) (u : Value) (h : Within u (ivarGet iv name)) :
    Within u (.obj o k g iv) := .ivar (ivarGet_mem hne) h

theorem perm_of_nodup {α : Type} {as bs : List α} (hnodup : as.Nodup) (hsub : as ⊆ bs)
    (hlen : as.length = bs.length) : as.Perm bs :=
  (hnodup.subperm hsub).perm_of_length_le hlen.ge

theorem setCodes_perm {xs ys : List Value} (hxs : (xs.map (hashCode mix cls)).Nodup)
    (hlen : xs.length = ys.length)
    (hfound : ∀ x ∈ xs, ∃ y ∈ ys, foundAs mix cls x y = true) :
    (xs.map (hashCode mix cls)).Perm (ys.map (hashCode mix cls)) := by
  refine perm_of_nodup hxs (fun c hc => ?_) (by simpa using hlen)
  obtain ⟨x, hx, rfl⟩ := List.mem_map.mp hc
  obtain ⟨y, hy, hxy⟩ := hfound x hx
  exact List.mem_map.mpr ⟨y, hy, (foundAs_iff.mp hxy).1.symm⟩

/-- The hashes of the two values are one exactly when they share their structs. -/
def HashesShared (mix : HashInput C → C) (cls : Lookup) (v w : Value) : Prop :=
  hashCode mix cls v = hashCode mix cls w ↔ Shared mix cls v w

theorem elems_hashesShared {xs ys : List Value}
    (h : List.Forall₂ (HashesShared mix cls) xs ys) :
    xs.map (hashCode mix cls) = ys.map (hashCode mix cls) ↔
      SharedElems mix cls xs ys := by
  induction h with
  | nil => simp [SharedElems]
  | cons hxy _ ih =>
    rw [List.map_cons, List.map_cons, List.cons.injEq, ih, SharedElems]
    exact and_congr_left fun _ => hxy

theorem entries_hashesShared {kvs kvs' : List (Value × Value)} {strict : Bool}
    (hkvs : (kvs.map fun e => hashCode mix cls e.1).Nodup)
    (hkvs' : (kvs'.map fun e => hashCode mix cls e.1).Nodup)
    (hlen : kvs.length = kvs'.length)
    (hfound : ∀ e ∈ kvs, ∃ e', kvs'.find? (fun e' => foundAs mix cls e.1 e'.1) = some e' ∧
      equal mix cls strict e.2 e'.2 = true)
    (ihk : ∀ e ∈ kvs, ∀ e' ∈ kvs', equal mix cls true e.1 e'.1 = true →
      HashesShared mix cls e.1 e'.1)
    (ih : ∀ e ∈ kvs, ∀ e' ∈ kvs', equal mix cls strict e.2 e'.2 = true →
      HashesShared mix cls e.2 e'.2) :
    (kvs.map (entryCode mix cls)).Perm (kvs'.map (entryCode mix cls)) ↔
      SharedEntries mix cls kvs kvs' := by
  have hunique : ∀ e ∈ kvs', ∀ e' ∈ kvs',
      hashCode mix cls e.1 = hashCode mix cls e'.1 → e = e' :=
    fun e he e' he' heq => List.inj_on_of_nodup_map hkvs' he he' heq
  rw [sharedEntries_iff]
  constructor
  · intro hperm e he e' he' hkey hsharedKey
    obtain ⟨found, hfind, hequal⟩ := hfound e he
    obtain ⟨hmem, hfoundAs⟩ := mem_of_lookup hfind
    have hfoundKey := (foundAs_iff.mp hfoundAs).1
    have hkey' := (ihk e he e' he' hkey).mpr hsharedKey
    obtain rfl := hunique found hmem e' he' (hfoundKey.symm.trans hkey')
    obtain ⟨other, hother, hcode⟩ := List.mem_map.mp
      (hperm.subset (List.mem_map.mpr ⟨e, he, rfl⟩))
    obtain ⟨hotherKey, hotherValue⟩ := Prod.mk.inj hcode
    obtain rfl := hunique other hother found hmem (hotherKey.trans hfoundKey)
    exact (ih e he other hmem hequal).mp hotherValue.symm
  · intro hshared
    have hnodup : (kvs.map (entryCode mix cls)).Nodup := by
      refine List.Nodup.of_map Prod.fst ?_
      rw [List.map_map]
      exact hkvs
    refine perm_of_nodup hnodup (fun c hc => ?_) (by simpa using hlen)
    obtain ⟨e, he, rfl⟩ := List.mem_map.mp hc
    obtain ⟨e', hfind, hequal⟩ := hfound e he
    obtain ⟨hmem, hkey⟩ := mem_of_lookup hfind
    obtain ⟨hcode, heql⟩ := foundAs_iff.mp hkey
    have hsharedKey := (ihk e he e' hmem heql).mp hcode
    have hvalue := (ih e he e' hmem hequal).mpr (hshared e he e' hmem heql hsharedKey)
    exact List.mem_map.mpr ⟨e', hmem, Prod.ext hcode.symm hvalue.symm⟩

theorem strCode_eq {enc enc' : Encoding} {bytes : List UInt8}
    (h : comparable enc enc' bytes = true) :
    (if bytes.all (· < 128) then none else some enc) =
      if bytes.all (· < 128) then none else some enc' := by
  unfold comparable at h
  split
  · rfl
  · rename_i hall
    rcases Bool.or_eq_true_iff.mp h with h | h
    · rw [of_decide_eq_true h]
    · exact absurd h hall

theorem equal_nil {strict : Bool} {v : Value}
    (h : equal mix cls strict v .nil = true) : v = .nil := by
  cases v with
  | nil => rfl
  | _ => simp [equal] at h

def IsLeaf : Value → Prop
  | .ary _ | .set _ | .hash _ | .obj .. => False
  | _ => True

theorem leaf_hashesShared (hmix : Function.Injective mix) {v w : Value} {strict : Bool}
    (hleaf : IsLeaf v) (h : equal mix cls strict v w = true) : HashesShared mix cls v w := by
  cases v with
  | ary | set | hash | obj => exact hleaf.elim
  | nil =>
    unfold equal at h
    rw [(Value.isNil_eq_true w).mp h]
    exact iff_of_true rfl (by simp [Shared])
  | float d =>
    cases w with
    | int n =>
      refine iff_of_false (fun heq => ?_) (by simp [Shared])
      cases hmix heq
    | float d' =>
      have hkey : floatKey d = floatKey d' := by
        simp only [equal, floatEq, Bool.and_eq_true, beq_iff_eq] at h
        exact h.2
      refine iff_of_true ?_ (by simp [Shared])
      rw [hashCode, hashCode, hkey]
    | _ => simp [equal] at h
  | int n =>
    cases w with
    | int n' =>
      obtain rfl : n = n' := by simpa [equal] using h
      exact iff_of_true rfl (by simp [Shared])
    | float d =>
      refine iff_of_false (fun heq => ?_) (by simp [Shared])
      cases hmix heq
    | _ => simp [equal] at h
  | str e b =>
    cases w with
    | str e' b' =>
      simp only [equal, Bool.and_eq_true, beq_iff_eq] at h
      obtain ⟨rfl, hcomparable⟩ := h
      refine iff_of_true ?_ (by simp [Shared])
      rw [hashCode, hashCode, strCode_eq hcomparable]
    | _ => simp [equal] at h
  | bool b =>
    cases w with
    | bool b' =>
      obtain rfl : b = b' := by simpa [equal] using h
      exact iff_of_true rfl (by simp [Shared])
    | _ => simp [equal] at h
  | sym s =>
    cases w with
    | sym s' =>
      obtain rfl : s = s' := by simpa [equal] using h
      exact iff_of_true rfl (by simp [Shared])
    | _ => simp [equal] at h
  | klass k =>
    cases w with
    | klass k' =>
      obtain rfl : k = k' := by simpa [equal] using h
      exact iff_of_true rfl (by simp [Shared])
    | _ => simp [equal] at h
  | foreign o name =>
    cases w with
    | foreign o' name' =>
      obtain rfl : o = o' := by simpa [equal] using h
      exact iff_of_true rfl (by simp [Shared])
    | _ => simp [equal] at h

omit [DecidableEq C] in
theorem ownCode_iff (hmix : Function.Injective mix) {v w : Value} (hv : ∃ n, v = .int n)
    (hw : ∃ n, w = .int n) :
    mix (.own (hashCode mix cls v)) = mix (.own (hashCode mix cls w)) ↔ v = w := by
  obtain ⟨n, rfl⟩ := hv
  obtain ⟨n', rfl⟩ := hw
  rw [hmix.eq_iff, HashInput.own.injEq, hashCode, hashCode, hmix.eq_iff, HashInput.int.injEq,
    Value.int.injEq]

theorem unionCode_iff (hmix : Function.Injective mix) {k : VALUE} {iv iv' : List (ID × Value)}
    (hfield : setField iv = setField iv')
    (hvalue : ∀ f, setField iv = some f →
      HashesShared mix cls (ivarGet iv ("@" ++ f)) (ivarGet iv' ("@" ++ f))) :
    mix (.union k (setField iv) (match setField iv with
        | none => mix .nil
        | some f => hashCode mix cls (ivarGet iv ("@" ++ f)))) =
      mix (.union k (setField iv') (match setField iv' with
        | none => mix .nil
        | some f => hashCode mix cls (ivarGet iv' ("@" ++ f)))) ↔
      ∀ f, setField iv = some f →
        Shared mix cls (ivarGet iv ("@" ++ f)) (ivarGet iv' ("@" ++ f)) := by
  rw [← hfield, hmix.eq_iff, HashInput.union.injEq]
  simp only [true_and]
  cases hf : setField iv with
  | none => simp
  | some f =>
    simp only [Option.some.injEq, forall_eq']
    exact hvalue f hf

theorem obj_hashesShared (hmix : Function.Injective mix) {o o' : ℕ} {k k' : VALUE} {g g' : Bool}
    {iv iv' : List (ID × Value)} {strict : Bool}
    (h : equal mix cls strict (.obj o k g iv) (.obj o' k' g' iv') = true)
    (heap : OneHeap (.obj o k g iv) (.obj o' k' g' iv'))
    (hv : OwnHashes cls (.obj o k g iv)) (hw : OwnHashes cls (.obj o' k' g' iv'))
    (ih : ∀ name, equal mix cls false (ivarGet iv name) (ivarGet iv' name) = true →
      HashesShared mix cls (ivarGet iv name) (ivarGet iv' name)) :
    HashesShared mix cls (.obj o k g iv) (.obj o' k' g' iv') := by
  rw [equal_obj] at h
  unfold HashesShared
  rw [shared_obj, hashCode_obj, hashCode_obj]
  by_cases ho : o = o'
  · subst ho
    obtain ⟨rfl, rfl⟩ := heap o k g iv k' g' iv' .refl .refl
    exact iff_of_true rfl (.inl rfl)
  obtain ⟨hk, hparts⟩ := h.resolve_left ho
  subst hk
  simp only [ho, false_or]
  by_cases hown : cls.ownHash k = true
  · simp only [hown, if_true]
    exact ownCode_iff hmix (hv o k g iv .refl hown) (hw o' k g' iv' .refl hown)
  simp only [hown]
  by_cases hunion : cls.isUnion k = true
  · rw [if_pos hunion] at hparts
    simp only [hunion, if_true, true_and]
    exact unionCode_iff hmix hparts.1 fun f hf => ih _ (hparts.2 f hf)
  · simp only [hunion, if_false, hmix.eq_iff, HashInput.object.injEq, ho, Bool.false_eq_true,
      false_and]

theorem hashesShared (hmix : Function.Injective mix) (v : Value) : ∀ (strict : Bool) (w : Value),
    equal mix cls strict v w = true → OneHeap v w → Proper mix cls v → Proper mix cls w →
      HashesShared mix cls v w := by
  induction v using Value.induct with
  | ary xs ih =>
    intro strict w h heap hv hw
    cases w with
    | ary ys =>
      rw [equal, equalElems_iff] at h
      have helems : List.Forall₂ (HashesShared mix cls) xs ys :=
        forall₂_imp_mem h fun x hx y hy hxy => ih x hx strict y hxy
          (heap.mono (fun _ hu => .ary hx hu) fun _ hu => .ary hy hu)
          (hv.mono fun _ hu => .ary hx hu) (hw.mono fun _ hu => .ary hy hu)
      unfold HashesShared
      rw [hashCode, hashCode, hmix.eq_iff, HashInput.ary.injEq, elemCodes_eq, elemCodes_eq,
        elems_hashesShared helems, Shared]
    | _ => simp [equal] at h
  | set xs ih =>
    intro strict w h _ hv _
    cases w with
    | set ys =>
      rw [equal, Bool.and_eq_true, beq_iff_eq, elemsFound_iff] at h
      refine iff_of_true ?_ (by simp [Shared])
      rw [hashCode, hashCode, elemCodes_eq, elemCodes_eq,
        Multiset.coe_eq_coe.mpr (setCodes_perm (hv.sets xs .refl) h.1 h.2)]
    | _ => simp [equal] at h
  | hash kvs ih =>
    intro strict w h heap hv hw
    cases w with
    | hash kvs' =>
      rw [equal, Bool.and_eq_true, beq_iff_eq, entriesEqual_iff] at h
      have hentries := entries_hashesShared (hv.hashes kvs .refl) (hw.hashes kvs' .refl) h.1 h.2
        (fun e he e' he' hequal => (ih e he).1 true e'.1 hequal
          (heap.mono (fun _ hu => .key he hu) fun _ hu => .key he' hu)
          (hv.mono fun _ hu => .key he hu) (hw.mono fun _ hu => .key he' hu))
        fun e he e' he' hequal => (ih e he).2 strict e'.2 hequal
          (heap.mono (fun _ hu => .value he hu) fun _ hu => .value he' hu)
          (hv.mono fun _ hu => .value he hu) (hw.mono fun _ hu => .value he' hu)
      unfold HashesShared
      rw [hashCode, hashCode, hmix.eq_iff, HashInput.hash.injEq, entryCodes_eq, entryCodes_eq,
        Multiset.coe_eq_coe, Shared]
      exact hentries
    | _ => simp [equal] at h
  | obj o k g iv ih =>
    intro strict w h heap hv hw
    cases w with
    | obj o' k' g' iv' =>
      refine obj_hashesShared hmix h heap hv.own hw.own fun name hvalues => ?_
      by_cases hnil : ivarGet iv name = .nil
      · rw [hnil] at hvalues ⊢
        exact leaf_hashesShared hmix trivial hvalues
      · have hnil' : ivarGet iv' name ≠ .nil := fun hnil' => hnil (equal_nil (hnil' ▸ hvalues))
        exact ih _ (ivarGet_mem hnil) false _ hvalues
          (heap.mono (within_ivarGet hnil) (within_ivarGet hnil'))
          (hv.mono (within_ivarGet hnil)) (hw.mono (within_ivarGet hnil'))
    | _ => simp [equal] at h
  | _ => exact fun strict w h _ _ _ => leaf_hashesShared hmix trivial h

end SharingLemmas

end Sparsam.ObjectHashes
