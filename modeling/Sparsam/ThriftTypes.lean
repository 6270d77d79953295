import Mathlib.Data.List.Basic
import Mathlib.Data.List.Forall2
import Mathlib.Data.Int.Notation

set_option autoImplicit false

/-!
# The compiler's types, constants and fields

What the parser of the compiler builds: `t_type` and its subclasses,
`t_const_value`, `t_field` and `t_struct`. Pointers are values here, so a field
holds its type and a type its struct; only a typedef to a name that was not yet
defined looks that name up again, in the scope of the program it stands in.
Source text is a string of bytes, each written as the character of its number.
-/
namespace Sparsam.ThriftTypes

/-- How the compiler stops: a message that is thrown; one that is printed before `exit`;
    or the model's own bound on a loop. -/
inductive CompileError where
  | failure (msg : String)
  | exit (msg : String)
  | outOfFuel
deriving DecidableEq, Repr

abbrev Compile := Except CompileError

def failure {α : Type} (msg : String) : Compile α := throw (.failure msg)

theorem bind_ok {α β : Type} {x : Compile α} {f : α → Compile β} {b : β}
    (h : (x >>= f) = .ok b) : ∃ a, x = .ok a ∧ f a = .ok b := by
  cases x with
  | error e => cases h
  | ok a => exact ⟨a, rfl, h⟩

theorem mapM_ok {α β : Type} {f : α → Compile β} {xs : List α} {ys : List β}
    (h : xs.mapM f = .ok ys) : List.Forall₂ (fun x y => f x = .ok y) xs ys := by
  induction xs generalizing ys with
  | nil =>
    obtain rfl := Except.ok.inj h
    exact .nil
  | cons x xs ih =>
    rw [List.mapM_cons] at h
    obtain ⟨y, hy, h⟩ := bind_ok h
    obtain ⟨rest, hrest, h⟩ := bind_ok h
    obtain rfl := Except.ok.inj h
    exact .cons hy (ih hrest)

inductive TBase where
  | TYPE_VOID
  | TYPE_STRING
  | TYPE_BOOL
  | TYPE_BYTE
  | TYPE_I16
  | TYPE_I32
  | TYPE_I64
  | TYPE_DOUBLE
deriving DecidableEq, Repr

def tBaseName : TBase → String
  | .TYPE_VOID => "void"
  | .TYPE_STRING => "string"
  | .TYPE_BOOL => "bool"
  | .TYPE_BYTE => "byte"
  | .TYPE_I16 => "i16"
  | .TYPE_I32 => "i32"
  | .TYPE_I64 => "i64"
  | .TYPE_DOUBLE => "double"

/-- The part of a `t_program` its types refer to: the file and its namespaces. -/
structure TProgram where
  path : String
  namespaces : List (String × String) := []
deriving DecidableEq, Repr

structure TEnumValue where
  name : String
  value : Int32
deriving DecidableEq, Repr

structure TEnum where
  program : TProgram
  name : String
  constants : List TEnumValue
deriving DecidableEq, Repr

namespace TEnum

def getConstantByName (e : TEnum) (name : String) : Option TEnumValue :=
  e.constants.find? fun c => c.name == name

def getConstantByValue (e : TEnum) (value : ℤ) : Option TEnumValue :=
  e.constants.find? fun c => c.value.toInt == value

end TEnum

inductive CV where
  | CV_INTEGER
  | CV_DOUBLE
  | CV_STRING
  | CV_MAP
  | CV_LIST
  | CV_IDENTIFIER
deriving DecidableEq, Repr

/-- `t_const_value` with all its members; what the constructor leaves unset holds
    any value. The entries of `mapVal` stand in the order of their addresses. -/
structure ConstValue where
  valType : CV
  mapVal : List (ConstValue × ConstValue) := []
  listVal : List ConstValue := []
  stringVal : String := ""
  intVal : Int64 := 0
  doubleVal : UInt64 := 0
  identifierVal : String := ""
  tenum : Option TEnum := none

namespace ConstValue

theorem induct {P : ConstValue → Prop}
    (mk : ∀ cv : ConstValue, (∀ e ∈ cv.mapVal, P e.1 ∧ P e.2) → (∀ x ∈ cv.listVal, P x) → P cv) :
    ∀ cv, P cv := by
  intro cv
  refine ConstValue.rec (motive_1 := P) (motive_2 := fun es => ∀ e ∈ es, P e.1 ∧ P e.2)
    (motive_3 := fun xs => ∀ x ∈ xs, P x) (motive_4 := fun e => P e.1 ∧ P e.2) ?_ ?_ ?_ ?_ ?_ ?_ cv
  · intro t es xs s n d i e hes hxs
    exact mk ⟨t, es, xs, s, n, d, i, e⟩ hes hxs
  · simp
  · intro e es he hes x hx
    rcases List.mem_cons.mp hx with rfl | hx
    · exact he
    · exact hes x hx
  · simp
  · intro y ys hy hys x hx
    rcases List.mem_cons.mp hx with rfl | hx
    · exact hy
    · exact hys x hx
  · exact fun k v hk hv => ⟨hk, hv⟩

def setInteger (cv : ConstValue) (val : Int64) : ConstValue :=
  { cv with valType := .CV_INTEGER, intVal := val }

def setDouble (cv : ConstValue) (val : UInt64) : ConstValue :=
  { cv with valType := .CV_DOUBLE, doubleVal := val }

def setString (cv : ConstValue) (val : String) : ConstValue :=
  { cv with valType := .CV_STRING, stringVal := val }

def setIdentifier (cv : ConstValue) (val : String) : ConstValue :=
  { cv with valType := .CV_IDENTIFIER, identifierVal := val }

def setEnum (cv : ConstValue) (e : TEnum) : ConstValue := { cv with tenum := some e }

def afterLastDot (name : String) : String :=
  String.ofList (name.toList.reverse.takeWhile (· ≠ '.')).reverse

def afterDot : List Char → Option (List Char)
  | [] => none
  | c :: cs => if c = '.' then some cs else afterDot cs

def getInteger (cv : ConstValue) : Compile Int64 :=
  if cv.valType = .CV_IDENTIFIER then
    match cv.tenum with
    | none => failure ("have identifier \"" ++ cv.identifierVal ++ "\", but unset enum on line!")
    | some e =>
      match e.getConstantByName (afterLastDot cv.identifierVal) with
      | none =>
        failure ("Unable to find enum value \"" ++ afterLastDot cv.identifierVal ++
          "\" in enum \"" ++ e.name ++ "\"")
      | some val => pure (Int64.ofInt val.value.toInt)
  else pure cv.intVal

/-- The identifier without the file or the enum before it: at most two parts go. -/
def getIdentifierName (cv : ConstValue) : Compile String :=
  match afterDot cv.identifierVal.toList with
  | none => failure ("error: identifier " ++ cv.identifierVal ++ " is unqualified!")
  | some ret =>
    match afterDot ret with
    | none => pure (String.ofList ret)
    | some ret => pure (String.ofList ret)

end ConstValue

inductive Req where
  | T_REQUIRED
  | T_OPTIONAL
  | T_OPT_IN_REQ_OUT
deriving DecidableEq, Repr

/-- `t_field` over the types `τ`. -/
structure TFieldOf (τ : Type) where
  type : τ
  name : String
  key : Int32
  req : Req
  value : Option ConstValue := none
  annotations : List (String × String) := []
  doc : Option String := none

/-- `t_struct` over the types `τ`. The vector in id order is computed from `members`. -/
structure TStructOf (τ : Type) where
  program : TProgram
  name : String := ""
  members : List (TFieldOf τ) := []
  isXception : Bool := false
  isUnion : Bool := false
  membersValidated : Bool := false
  membersWithValue : ℕ := 0

inductive ThriftType where
  | baseType (base : TBase) (isBinary : Bool)
  | enum (tenum : TEnum)
  | struct (tstruct : TStructOf ThriftType)
  | list (elem : ThriftType)
  | set (elem : ThriftType)
  | map (key val : ThriftType)
  | typedef (program : TProgram) (symbolic : String) (type : ThriftType)
  | forwardTypedef (program : TProgram) (symbolic : String)

abbrev TField := TFieldOf ThriftType
abbrev TStruct := TStructOf ThriftType

/-- Induction over the containers and typedefs of a type; a struct is a leaf. -/
@[induction_eliminator]
theorem ThriftType.induct {P : ThriftType → Prop} (baseType : ∀ b bin, P (.baseType b bin))
    (enum : ∀ e, P (.enum e)) (struct : ∀ s, P (.struct s)) (list : ∀ e, P e → P (.list e))
    (set : ∀ e, P e → P (.set e)) (map : ∀ k v, P k → P v → P (.map k v))
    (typedef : ∀ p s t, P t → P (.typedef p s t))
    (forwardTypedef : ∀ p s, P (.forwardTypedef p s)) : ∀ t, P t := by
  intro t
  exact ThriftType.rec (motive_1 := P) (motive_2 := fun _ => True) (motive_3 := fun _ => True)
    (motive_4 := fun _ => True) baseType enum (fun s _ => struct s) list set map typedef
    forwardTypedef (fun _ _ _ _ _ _ _ _ => trivial) trivial (fun _ _ _ _ => trivial)
    (fun _ _ _ _ _ _ _ _ => trivial) t

namespace ThriftType

/-- `get_name`; containers have none. -/
def getName : ThriftType → String
  | .baseType b _ => tBaseName b
  | .enum e => e.name
  | .struct s => s.name
  | .list _ | .set _ | .map _ _ => ""
  | .typedef _ symbolic _ => symbolic
  | .forwardTypedef _ symbolic => symbolic

def isVoid : ThriftType → Bool
  | .baseType .TYPE_VOID _ => true
  | _ => false

end ThriftType

namespace TStructOf
variable {τ : Type}

/-- `members_in_id_order_.insert(bounds.second, elem)` -/
def insertInIdOrder (elem : TFieldOf τ) : List (TFieldOf τ) → List (TFieldOf τ)
  | [] => [elem]
  | f :: fs => if elem.key < f.key then elem :: f :: fs else f :: insertInIdOrder elem fs

def sortedMembers (s : TStructOf τ) : List (TFieldOf τ) :=
  s.members.foldl (fun sorted elem => insertInIdOrder elem sorted) []

def getFieldByName (s : TStructOf τ) (name : String) : Option (TFieldOf τ) :=
  s.sortedMembers.find? fun f => f.name == name

/-- `field->set_req(req)`; the key names the field inside its struct. -/
def setReq (s : TStructOf τ) (key : Int32) (req : Req) : TStructOf τ :=
  { s with members := s.members.map fun f => if f.key = key then { f with req := req } else f }

def validateUnionMember (s : TStructOf τ) (field : TFieldOf τ) : Compile (TStructOf τ) :=
  if s.isUnion ∧ s.name ≠ "" then
    -- unions can't have required fields
    let s := if field.req = .T_REQUIRED then s.setReq field.key .T_OPTIONAL else s
    if field.value.isSome then
      if 1 < s.membersWithValue + 1 then
        failure ("Error: Field " ++ field.name ++ " provides another default value for union " ++
          s.name)
      else pure { s with membersWithValue := s.membersWithValue + 1 }
    else pure s
  else pure s

def validateUnionMembers (s : TStructOf τ) : Compile (TStructOf τ) :=
  if s.isUnion ∧ s.name ≠ "" ∧ s.membersValidated = false then do
    let s ← s.sortedMembers.foldlM validateUnionMember s
    pure { s with membersValidated := true }
  else pure s

def setName (s : TStructOf τ) (name : String) : Compile (TStructOf τ) :=
  validateUnionMembers { s with name := name }

def setUnion (s : TStructOf τ) (isUnion : Bool) : Compile (TStructOf τ) :=
  validateUnionMembers { s with isUnion := isUnion }

def setXception (s : TStructOf τ) (isXception : Bool) : TStructOf τ :=
  { s with isXception := isXception }

/-- `append`; `none` is its return value false. -/
def append (s : TStructOf τ) (elem : TFieldOf τ) : Compile (Option (TStructOf τ)) :=
  if s.members.any fun f => f.key == elem.key then pure none
  else if (s.getFieldByName elem.name).isSome then pure none
  else do
    let s ← validateUnionMember { s with members := s.members ++ [elem] } elem
    pure (some s)

end TStructOf

end Sparsam.ThriftTypes
