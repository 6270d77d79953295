import Sparsam.ThriftTypes

set_option autoImplicit false

/-!
# `t_scope`, typedef expansion and `validate_const_rec`

A scope maps the names a program can use to types, constants and services. A
typedef to a name that was unknown when it was read is resolved when it is
asked for, in its own program's scope; `scopes` gives the scope of a file.
-/
namespace Sparsam.ThriftScope
open ThriftTypes

structure TConst where
  type : ThriftType
  name : String
  value : ConstValue

structure TFunction where
  returntype : ThriftType
  name : String
  arglist : TStruct
  xceptions : TStruct
  oneway : Bool

structure TService where
  program : TProgram
  name : String
  functions : List TFunction := []
  extends_ : Option String := none

/-- The three maps of `t_scope`; a later entry for a name hides an earlier one. A
    lookup that fails leaves a NULL in the map, which reads as no entry. -/
structure Scope where
  types : List (String × ThriftType) := []
  constants : List (String × TConst) := []
  services : List (String × TService) := []

namespace Scope

def addType (sc : Scope) (name : String) (type : ThriftType) : Scope :=
  { sc with types := (name, type) :: sc.types }

def getType (sc : Scope) (name : String) : Option ThriftType := sc.types.lookup name

def addService (sc : Scope) (name : String) (service : TService) : Scope :=
  { sc with services := (name, service) :: sc.services }

def getService (sc : Scope) (name : String) : Option TService := sc.services.lookup name

def addConstant (sc : Scope) (name : String) (constant : TConst) : Compile Scope :=
  if (sc.constants.lookup name).isSome then failure ("Enum " ++ name ++ " is already defined!")
  else pure { sc with constants := (name, constant) :: sc.constants }

def getConstant (sc : Scope) (name : String) : Option TConst := sc.constants.lookup name

end Scope

/-- Before any file has been read. -/
def noScopes : String → Scope := fun _ => {}

section TrueType
variable (scopes : String → Scope)

/-- `t_typedef::get_type`; `none` is a type that is no typedef. -/
def getType : ThriftType → Option (Compile ThriftType)
  | .typedef _ _ type => some (pure type)
  | .forwardTypedef program symbolic =>
    match (scopes program.path).getType symbolic with
    | none => some (throw (.exit ("Type \"" ++ symbolic ++ "\" not defined\n")))
    | some type => some (pure type)
  | _ => none

/-- `t_type::get_true_type`, whose loop runs at most `fuel` times here. -/
def getTrueType : ℕ → ThriftType → Compile ThriftType
  | 0, _ => throw .outOfFuel
  | fuel + 1, type =>
    match getType scopes type with
    | none => pure type
    | some next => do getTrueType fuel (← next)

end TrueType

section Resolve
variable (scopes : String → Scope) (fuel : ℕ) (scope : Scope)

def resolveIdentifier (constVal : ConstValue) : Compile ConstValue :=
  match scope.getConstant constVal.identifierVal with
  | none => failure ("No enum value or constant found named \"" ++ constVal.identifierVal ++ "\"!")
  | some constant => do
    match ← getTrueType scopes fuel constant.type with
    | .baseType base _ =>
      match base with
      | .TYPE_I16 | .TYPE_I32 | .TYPE_I64 | .TYPE_BOOL | .TYPE_BYTE =>
        pure (constVal.setInteger (← constant.value.getInteger))
      | .TYPE_STRING => pure (constVal.setString constant.value.stringVal)
      | .TYPE_DOUBLE => pure (constVal.setDouble constant.value.doubleVal)
      | .TYPE_VOID => failure "Constants cannot be of type VOID"
    | .map _ _ =>
      pure { constVal with
        valType := .CV_MAP, mapVal := constVal.mapVal ++ constant.value.mapVal }
    | .list _ =>
      pure { constVal with
        valType := .CV_LIST, listVal := constVal.listVal ++ constant.value.listVal }
    | _ => pure constVal

/-- The branches of `resolve_const_value` that look at a single value. -/
def resolveSingle (ttype : ThriftType) (constVal : ConstValue) : Compile ConstValue :=
  if constVal.valType = .CV_IDENTIFIER then
    match ttype with
    | .enum tenum => pure (constVal.setEnum tenum)
    | _ => resolveIdentifier scopes fuel scope constVal
  else
    match ttype with
    | .enum tenum => do
      let val ← constVal.getInteger
      match tenum.getConstantByValue val.toInt with
      | none =>
        failure ("Couldn't find a named value in enum " ++ tenum.name ++ " for value " ++
          toString val.toInt)
      | some enumValue =>
        pure ((constVal.setIdentifier (tenum.name ++ "." ++ enumValue.name)).setEnum tenum)
    | _ => pure constVal

mutual
def resolveConstValue : ThriftType → ConstValue → Compile ConstValue := fun ttype constVal =>
  match ttype, constVal with
  | .map key val, ⟨t, es, xs, s, n, d, i, e⟩ => do
    pure ⟨t, ← resolveEntries key val es, xs, s, n, d, i, e⟩
  | .list elem, ⟨t, es, xs, s, n, d, i, e⟩ => do
    pure ⟨t, es, ← resolveElems elem xs, s, n, d, i, e⟩
  | .set elem, ⟨t, es, xs, s, n, d, i, e⟩ => do
    pure ⟨t, es, ← resolveElems elem xs, s, n, d, i, e⟩
  | .struct tstruct, ⟨t, es, xs, s, n, d, i, e⟩ =>
    -- `is_struct` is false for an exception
    if tstruct.isXception then resolveSingle scopes fuel scope ttype constVal
    else do pure ⟨t, ← resolveFields tstruct es, xs, s, n, d, i, e⟩
  | _, _ => resolveSingle scopes fuel scope ttype constVal

def resolveEntries (key val : ThriftType) :
    List (ConstValue × ConstValue) → Compile (List (ConstValue × ConstValue))
  | [] => pure []
  | (k, v) :: es => do
    let k ← resolveConstValue key k
    let v ← resolveConstValue val v
    pure ((k, v) :: (← resolveEntries key val es))

def resolveElems (elem : ThriftType) : List ConstValue → Compile (List ConstValue)
  | [] => pure []
  | x :: xs => do
    let x ← resolveConstValue elem x
    pure (x :: (← resolveElems elem xs))

def resolveFields (tstruct : TStruct) :
    List (ConstValue × ConstValue) → Compile (List (ConstValue × ConstValue))
  | [] => pure []
  | (k, v) :: es =>
    match tstruct.getFieldByName k.stringVal with
    | none =>
      failure ("No field named \"" ++ k.stringVal ++ "\" was found in struct of type \"" ++
        tstruct.name ++ "\"")
    | some field => do
      let v ← resolveConstValue field.type v
      pure ((k, v) :: (← resolveFields tstruct es))
end

end Resolve

def memberType (tstruct : TStruct) (name : String) : Option ThriftType :=
  tstruct.members.foldl (fun found f => if f.name = name then some f.type else found) none

def validateBase (name : String) (tbase : TBase) (value : ConstValue) : Compile Unit :=
  let declared : Compile Unit :=
    failure ("type error: const \"" ++ name ++ "\" was declared as " ++ tBaseName tbase)
  match tbase with
  | .TYPE_STRING => if value.valType ≠ .CV_STRING then declared else pure ()
  | .TYPE_BOOL | .TYPE_BYTE | .TYPE_I16 | .TYPE_I32 | .TYPE_I64 =>
    if value.valType ≠ .CV_INTEGER then declared else pure ()
  | .TYPE_DOUBLE =>
    if value.valType ≠ .CV_INTEGER ∧ value.valType ≠ .CV_DOUBLE then declared else pure ()
  | .TYPE_VOID => failure ("compiler error: no const of base type " ++ tBaseName tbase ++ name)

def validateEnum (name : String) (tenum : TEnum) (value : ConstValue) : Compile Unit :=
  if value.valType ≠ .CV_IDENTIFIER then
    failure ("type error: const \"" ++ name ++ "\" was declared as enum")
  else do
    let namePortion ← value.getIdentifierName
    if (tenum.getConstantByName namePortion).isSome then pure ()
    else
      failure ("type error: const " ++ name ++ " was declared as type " ++ tenum.name ++
        " which is an enum, but " ++ value.identifierVal ++ " is not a valid value for that enum")

mutual
/-- `validate_const_rec`; a typedef falls through all its cases. -/
def validateConstRec : String → ThriftType → ConstValue → Compile Unit :=
    fun name type value =>
  match type, value with
  | .baseType .TYPE_VOID _, _ =>
    failure ("type error: cannot declare a void const: " ++ name)
  | .baseType tbase _, _ => validateBase name tbase value
  | .enum tenum, _ => validateEnum name tenum value
  | .struct tstruct, ⟨t, es, _, _, _, _, _, _⟩ =>
    if t ≠ .CV_MAP then
      failure ("type error: const \"" ++ name ++ "\" was declared as struct/xception")
    else validateFields name tstruct es
  | .map kType vType, ⟨_, es, _, _, _, _, _, _⟩ => validateEntries name kType vType es
  | .list eType, ⟨_, _, xs, _, _, _, _, _⟩ => validateElems name eType xs
  | .set eType, ⟨_, _, xs, _, _, _, _, _⟩ => validateElems name eType xs
  | .typedef _ _ _, _ | .forwardTypedef _ _, _ => pure ()

def validateFields (name : String) (tstruct : TStruct) :
    List (ConstValue × ConstValue) → Compile Unit
  | [] => pure ()
  | (k, v) :: es =>
    if k.valType ≠ .CV_STRING then failure ("type error: " ++ name ++ " struct key must be string")
    else
      match memberType tstruct k.stringVal with
      | none => failure ("type error: " ++ tstruct.name ++ " has no field " ++ k.stringVal)
      | some fieldType => do
        validateConstRec (name ++ "." ++ k.stringVal) fieldType v
        validateFields name tstruct es

def validateEntries (name : String) (kType vType : ThriftType) :
    List (ConstValue × ConstValue) → Compile Unit
  | [] => pure ()
  | (k, v) :: es => do
    validateConstRec (name ++ "<key>") kType k
    validateConstRec (name ++ "<val>") vType v
    validateEntries name kType vType es

def validateElems (name : String) (eType : ThriftType) : List ConstValue → Compile Unit
  | [] => pure ()
  | x :: xs => do
    validateConstRec (name ++ "<elem>") eType x
    validateElems name eType xs
end

end Sparsam.ThriftScope
