import Mathlib.Data.Int.Notation
import Mathlib.Data.List.Basic

set_option autoImplicit false

/-!
# The Ruby values the extension reads and builds

An object carries its identity, its class, whether it has an eigenclass and its
instance variables. Hash and Set keep insertion order and compare keys by
`eql?` together with `hash`; `Sparsam::Struct` defines no `hash`, so as a key an
instance of it is only itself, while `Sparsam::Union` hashes what it holds.
-/
namespace Sparsam.RubyRuntime

/-- A class as the extension holds it. `0` is what `new FieldInfo()` leaves. -/
abbrev VALUE := ℕ

abbrev ID := String

/-- The base class of a generated class. -/
inductive Superclass where
  | union
  | applicationException
  | struct
deriving DecidableEq, Repr

inductive Encoding where
  | utf8
  | binary
  | other (index : ℕ)
deriving DecidableEq, Repr

inductive Value where
  | nil
  | bool (b : Bool)
  | int (n : ℤ)
  | float (bits : UInt64)
  | sym (name : ID)
  | str (enc : Encoding) (bytes : List UInt8)
  | ary (elems : List Value)
  | set (elems : List Value)
  | hash (entries : List (Value × Value))
  | obj (oid : ℕ) (klass : VALUE) (eigen : Bool) (ivars : List (ID × Value))
  | klass (k : VALUE)
  /-- An object of a class the compiler did not generate. -/
  | foreign (oid : ℕ) (name : String)

namespace Value

def isNil : Value → Bool
  | .nil => true
  | _ => false

@[simp] theorem isNil_eq_true (v : Value) : v.isNil = true ↔ v = .nil := by
  cases v <;> simp [isNil]

@[simp] theorem isNil_eq_false (v : Value) : v.isNil = false ↔ v ≠ .nil := by
  cases v <;> simp [isNil]

theorem induct {P : Value → Prop} (nil : P .nil) (bool : ∀ b, P (.bool b)) (int : ∀ n, P (.int n))
    (float : ∀ b, P (.float b)) (sym : ∀ s, P (.sym s)) (str : ∀ e b, P (.str e b))
    (ary : ∀ xs, (∀ x ∈ xs, P x) → P (.ary xs)) (set : ∀ xs, (∀ x ∈ xs, P x) → P (.set xs))
    (hash : ∀ kvs, (∀ e ∈ kvs, P e.1 ∧ P e.2) → P (.hash kvs))
    (obj : ∀ o k g iv, (∀ e ∈ iv, P e.2) → P (.obj o k g iv)) (klass : ∀ k, P (.klass k))
    (foreign : ∀ o k, P (.foreign o k)) : ∀ v, P v := by
  intro v
  refine Value.rec (motive_1 := P) (motive_2 := fun xs => ∀ x ∈ xs, P x)
    (motive_3 := fun kvs => ∀ e ∈ kvs, P e.1 ∧ P e.2) (motive_4 := fun iv => ∀ e ∈ iv, P e.2)
    (motive_5 := fun e => P e.1 ∧ P e.2) (motive_6 := fun e => P e.2)
    nil bool int float sym str ary set hash obj klass foreign ?_ ?_ ?_ ?_ ?_ ?_ ?_ ?_ v
  · simp
  · intro y ys hy hys x hx
    rcases List.mem_cons.mp hx with rfl | hx
    · exact hy
    · exact hys x hx
  · simp
  · intro e kvs he hkvs x hx
    rcases List.mem_cons.mp hx with rfl | hx
    · exact he
    · exact hkvs x hx
  · simp
  · intro e iv he hiv x hx
    rcases List.mem_cons.mp hx with rfl | hx
    · exact he
    · exact hiv x hx
  · exact fun k v hk hv => ⟨hk, hv⟩
  · exact fun name v hv => hv

end Value

/-- `rb_ivar_get`: an undefined instance variable reads as nil. -/
def ivarGet : List (ID × Value) → ID → Value
  | [], _ => .nil
  | (n, v) :: rest, name => if n = name then v else ivarGet rest name

def ivarSet : List (ID × Value) → ID → Value → List (ID × Value)
  | [], name, v => [(name, v)]
  | (n, x) :: rest, name, v => if n = name then (n, v) :: rest else (n, x) :: ivarSet rest name v

@[simp] theorem ivarGet_nil (name : ID) : ivarGet [] name = .nil := rfl

theorem ivarGet_ivarSet (iv : List (ID × Value)) (name other : ID) (v : Value) :
    ivarGet (ivarSet iv name v) other = if name = other then v else ivarGet iv other := by
  induction iv with
  | nil => simp [ivarSet, ivarGet]
  | cons e rest ih =>
    obtain ⟨n, x⟩ := e
    by_cases h : n = name
    · subst h
      by_cases ho : n = other <;> simp [ivarSet, ivarGet, ho]
    · by_cases ho : n = other
      · subst ho
        simp [ivarSet, ivarGet, h, Ne.symm h]
      · simpa [ivarSet, ivarGet, h, ho] using ih

theorem ivarGet_mem {iv : List (ID × Value)} {name : ID} (h : ivarGet iv name ≠ .nil) :
    (name, ivarGet iv name) ∈ iv := by
  induction iv with
  | nil => exact absurd rfl h
  | cons e rest ih =>
    by_cases hn : e.1 = name
    · subst hn
      simp [ivarGet]
    · simp only [ivarGet, hn, ↓reduceIte] at h ⊢
      exact List.mem_cons_of_mem _ (ih h)

def setField (iv : List (ID × Value)) : Option ID :=
  match ivarGet iv "@setfield" with
  | .sym f => some f
  | _ => none

/-- Both strings are ASCII only or have one encoding. -/
def comparable (e e' : Encoding) (bytes : List UInt8) : Bool :=
  decide (e = e') || bytes.all (· < 128)

def isNaN (d : UInt64) : Bool := decide (0x7ff0000000000000 < d &&& 0x7fffffffffffffff)

/-- The bits with one zero, as `Float#hash` takes them. -/
def floatKey (d : UInt64) : UInt64 := if d &&& 0x7fffffffffffffff = 0 then 0 else d

/-- `Float#==`, which is `Float#eql?` for two floats. -/
def floatEq (d d' : UInt64) : Bool := !isNaN d && floatKey d == floatKey d'

section Keys
variable (isUnion : VALUE → Bool)

mutual
/-- Two values are the same Hash key or Set element: `eql?` and equal `hash`. -/
def sameKey : Value → Value → Bool
  | .nil, w => w.isNil
  | .bool b, .bool b' => b == b'
  | .int n, .int n' => n == n'
  | .float d, .float d' => floatEq d d'
  | .sym s, .sym s' => s == s'
  | .str e b, .str e' b' => b == b' && comparable e e' b
  | .ary xs, .ary ys => sameKeys xs ys
  | .set xs, .set ys => xs.length == ys.length && keysWithin xs ys
  | .hash kvs, .hash kvs' => kvs.length == kvs'.length && entriesWithin kvs kvs'
  | .obj o k _ iv, .obj o' k' _ iv' =>
    if isUnion k then
      k == k' && setField iv == setField iv' &&
        match setField iv with
        | none => true
        | some f => sameKeyAt ("@" ++ f) iv (ivarGet iv' ("@" ++ f))
    else o == o'
  | .klass k, .klass k' => k == k'
  | .foreign o _, .foreign o' _ => o == o'
  | _, _ => false

def sameKeys : List Value → List Value → Bool
  | [], [] => true
  | x :: xs, y :: ys => sameKey x y && sameKeys xs ys
  | _, _ => false

def keysWithin : List Value → List Value → Bool
  | [], _ => true
  | x :: xs, ys => ys.any (fun y => sameKey x y) && keysWithin xs ys

def entriesWithin : List (Value × Value) → List (Value × Value) → Bool
  | [], _ => true
  | (k, v) :: kvs, kvs' =>
    kvs'.any (fun e => sameKey k e.1 && sameKey v e.2) && entriesWithin kvs kvs'

def sameKeyAt (name : ID) : List (ID × Value) → Value → Bool
  | [], w => w.isNil
  | (n, x) :: rest, w => if n = name then sameKey x w else sameKeyAt name rest w
end

/-- One step of `Set.new(ary)`: an element already present is dropped. -/
def setAdd (xs : List Value) (x : Value) : List Value :=
  if xs.any (fun y => sameKey isUnion y x) then xs else xs ++ [x]

def setNew (ary : List Value) : List Value := ary.foldl (setAdd isUnion) []

/-- `rb_hash_aset`: a present key keeps its place and takes the new value. -/
def hashAset : List (Value × Value) → Value → Value → List (Value × Value)
  | [], k, v => [(k, v)]
  | (k', v') :: kvs, k, v =>
    if sameKey isUnion k' k then (k', v) :: kvs else (k', v') :: hashAset kvs k v

end Keys

/-- Ruby classes by name; `eigen` is a singleton class. -/
inductive RClass where
  | builtin (name : String)
  | user (k : VALUE)
  | other (name : String)
  | eigen (c : RClass)
deriving DecidableEq, Repr

def RClass.real : RClass → RClass
  | .eigen c => c.real
  | c => c

def classOf : Value → RClass
  | .nil => .builtin "NilClass"
  | .bool true => .builtin "TrueClass"
  | .bool false => .builtin "FalseClass"
  | .int _ => .builtin "Integer"
  | .float _ => .builtin "Float"
  | .sym _ => .builtin "Symbol"
  | .str _ _ => .builtin "String"
  | .ary _ => .builtin "Array"
  | .set _ => .builtin "Set"
  | .hash _ => .builtin "Hash"
  | .obj _ k true _ => .eigen (.user k)
  | .obj _ k false _ => .user k
  | .klass _ => .builtin "Class"
  | .foreign _ name => .other name

/-- The exception classes the extension raises, and Ruby's own for a call that fails. -/
inductive ExcClass where
  | NativeError
  | MissingMandatory
  | TypeMismatch
  | UnionException
  | UnknownTypeException
  | RangeError
  | ArgumentError
  | NameError
  | NoMethodError
deriving DecidableEq, Repr

/-- How a call ends other than by returning: a Ruby exception with its message
    and, where the extension gives them, struct and field name; a dereference of
    a NULL pointer or of a VALUE that is no class; or the model's own bound. -/
inductive Err where
  | raised (cls : ExcClass) (msg : String) (structName fieldName : Option String)
  | crash
  | outOfFuel
deriving DecidableEq, Repr

def Err.isRaise : Err → Bool
  | .raised .. => true
  | _ => false

def Err.cls : Err → Option ExcClass
  | .raised c .. => some c
  | _ => none

end Sparsam.RubyRuntime
