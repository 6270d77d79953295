import Sparsam.ThriftParser

set_option autoImplicit false

/-!
# The audit of a new file against an old one

`t_audit.cpp`: every comparator looks an old definition up by its name among the
new ones and prints what changed. A failure also makes the compiler return an
error; the reports are listed here in the order in which they are printed.
-/
namespace Sparsam.Audit
open ThriftTypes ThriftScope ThriftParser

inductive Report where
  | warning (msg : String)
  | failure (msg : String)
deriving DecidableEq, Repr

def returnFailure (rs : List Report) : Prop := ∃ msg, Report.failure msg ∈ rs

/-- A `std::map` of the definitions by their names: the last of a name stays. -/
def byName {α : Type} (name : α → String) (defs : List α) (key : String) : Option α :=
  defs.foldl (fun found d => if name d = key then some d else found) none

/-- A report for an old definition without a new one of its name, else what
    comparing the two reports. -/
def compareByName {α : Type} (name : α → String) (missing : String → Report)
    (compare : α → α → List Report) (new old : List α) : List Report :=
  old.flatMap fun o =>
    match byName name new (name o) with
    | none => [missing (name o)]
    | some n => compare n o

def compareNamespace (new old : TProgram) : List Report :=
  old.namespaces.flatMap fun ns =>
    match new.namespaces.lookup ns.1 with
    | none => [.warning ("Language " ++ ns.1 ++ " not found in new thrift file\n")]
    | some newNs =>
      if newNs ≠ ns.2 then [.warning ("Namespace " ++ ns.2 ++ " changed in new thrift file\n")]
      else []

/-- One value of `compare_enum_values`. -/
def compareEnumValue (newEnum oldEnum : TEnum) (value : TEnumValue) : List Report :=
  match newEnum.getConstantByValue value.value.toInt with
  | some newValue =>
    if value.name ≠ newValue.name then
      [.warning ("Name of the value " ++ toString value.value.toInt ++ " changed in enum " ++
        oldEnum.name ++ "\n")]
    else []
  | none =>
    [.failure ("Enum value " ++ toString value.value.toInt ++ " missing in " ++ oldEnum.name ++
      "\n")]

def compareEnumValues (newEnum oldEnum : TEnum) : List Report :=
  oldEnum.constants.flatMap (compareEnumValue newEnum oldEnum)

def compareEnums (new old : List TEnum) : List Report :=
  compareByName TEnum.name
    (fun name => .warning ("Enum " ++ name ++ " not found in new thrift file\n"))
    compareEnumValues new old

/-- `compare_type`: two containers by what is in them, all else by `get_name`. -/
def compareType : ThriftType → ThriftType → Bool
  | .list new, .list old => compareType new old
  | .map newKey newVal, .map oldKey oldVal => compareType newKey oldKey && compareType newVal oldVal
  | .set new, .set old => compareType new old
  | new, old =>
    if new.getName = "" ∧ old.getName = "" then false else new.getName == old.getName

/-- The `==` of two doubles, given by their bits. -/
def doubleEq (a b : UInt64) : Bool :=
  let isNaN (x : UInt64) : Bool := decide (0x7ff0000000000000 < x &&& 0x7fffffffffffffff)
  let isZero (x : UInt64) : Bool := x &&& 0x7fffffffffffffff == 0
  !isNaN a && !isNaN b && (a == b || (isZero a && isZero b))

mutual
/-- `compare_defaults` for two values. -/
def compareValues : ConstValue → ConstValue → Bool := fun new old =>
  match new with
  | ⟨t, es, xs, s, n, d, i, _⟩ =>
    if t ≠ old.valType then false
    else
      match t with
      | .CV_INTEGER => n == old.intVal
      | .CV_DOUBLE => doubleEq d old.doubleVal
      | .CV_STRING => s == old.stringVal
      | .CV_LIST => old.listVal.length == xs.length && equalElems xs old.listVal
      | .CV_MAP => old.mapVal.length == es.length && equalEntries es old.mapVal
      | .CV_IDENTIFIER => i == old.identifierVal

def equalElems : List ConstValue → List ConstValue → Bool
  | [], _ => true
  | _ :: _, [] => false
  | x :: xs, y :: ys => compareValues x y && equalElems xs ys

/-- `std::equal` with `compare_pair` -/
def equalEntries :
    List (ConstValue × ConstValue) → List (ConstValue × ConstValue) → Bool
  | [], _ => true
  | _ :: _, [] => false
  | (k, v) :: es, old :: olds =>
    (compareValues k old.1 && compareValues v old.2) && equalEntries es olds
end

/-- `compare_defaults`; `none` is NULL. -/
def compareDefaults : Option ConstValue → Option ConstValue → Bool
  | none, none => true
  | some new, some old => compareValues new old
  | _, _ => false

def compareStructField (new old : TField) (oldStructName : String) : List Report :=
  let place := toString new.key.toInt ++ " in " ++ oldStructName
  let newOptional := decide (new.req ≠ .T_REQUIRED)
  let oldOptional := decide (old.req ≠ .T_REQUIRED)
  (if compareType new.type old.type then []
    else [.failure ("Struct Field Type Changed for Id = " ++ place ++ " \n")]) ++
  (if newOptional = oldOptional then []
    else [.failure ("Struct Field Requiredness Changed for Id = " ++ place ++ " \n")]) ++
  (if newOptional ∨ oldOptional then
      if compareDefaults new.value old.value then []
      else [.warning ("Default value changed for Id = " ++ place ++ " \n")]
    else []) ++
  (if new.name = old.name then []
    else [.warning ("Struct field name changed for Id = " ++ place ++ "\n")])

def fieldRemoved (old : TField) (structName : String) : Report :=
  .failure ("Struct Field removed for Id = " ++ toString old.key.toInt ++ " in " ++ structName ++
    " \n")

/-- The loop of `compare_single_struct` over both member lists in the order of ids. -/
def compareMembers (structName : String) : List TField → List TField → List Report
  | [], [] => []
  | [], old :: olds => fieldRemoved old structName :: compareMembers structName [] olds
  | new :: news, [] =>
    (if new.req = .T_REQUIRED then
        [.failure ("Required Struct Field Added for Id = " ++ toString new.key.toInt ++ " in " ++
          structName ++ " \n")]
      else []) ++ compareMembers structName news []
  | new :: news, old :: olds =>
    if new.key = old.key then
      compareStructField new old structName ++ compareMembers structName news olds
    else if new.key < old.key then
      .failure ("Struct field is added in the middle with Id = " ++ toString new.key.toInt ++
        " in " ++ structName ++ "\n") :: compareMembers structName news (old :: olds)
    else fieldRemoved old structName :: compareMembers structName (new :: news) olds
termination_by news olds => news.length + olds.length

/-- `compare_single_struct`; the default of its last argument is the empty string. -/
def compareSingleStruct (new old : TStruct) (oldStructName : String) : List Report :=
  let structName := if oldStructName = "" then old.name else oldStructName
  compareMembers structName new.sortedMembers old.sortedMembers

def compareStructs (new old : List TStruct) : List Report :=
  compareByName TStructOf.name
    (fun name => .failure ("Struct " ++ name ++ " not found in new thrift file\n"))
    (fun newStruct oldStruct => compareSingleStruct newStruct oldStruct "") new old

def compareSingleFunction (new old : TFunction) : List Report :=
  (if new.oneway = old.oneway then []
    else [.failure ("Oneway attribute changed for function " ++ old.name ++ "\n")]) ++
  (if compareType new.returntype old.returntype then []
    else [.failure ("Return type changed for function " ++ old.name ++ "\n")]) ++
  compareSingleStruct new.arglist old.arglist "" ++
  compareSingleStruct new.xceptions old.xceptions (old.name ++ "_exception")

def compareFunctions (new old : List TFunction) : List Report :=
  compareByName TFunction.name
    (fun name => .failure ("New Thrift File has missing function " ++ name ++ "\n"))
    compareSingleFunction new old

def compareExtends (new old : TService) : List Report :=
  match old.extends_, new.extends_ with
  | none, _ => []
  | some _, none => [.failure ("Change in Service inheritance for " ++ old.name ++ "\n")]
  | some oldName, some newName =>
    if newName ≠ oldName then
      [.failure ("Change in Service inheritance for " ++ old.name ++ "\n")]
    else []

def compareService (new old : TService) : List Report :=
  compareExtends new old ++ compareFunctions new.functions old.functions

def compareServices (new old : List TService) : List Report :=
  compareByName TService.name
    (fun name => .failure ("New Thrift file is missing a service " ++ name ++ "\n"))
    compareService new old

def compareConst (new old : TConst) : List Report :=
  if compareType new.type old.type = false then
    [.warning ("Constant " ++ old.name ++ " is of different type \n")]
  else if compareValues new.value old.value = false then
    [.warning ("Constant " ++ old.name ++ " has different value\n")]
  else []

def compareConsts (new old : List TConst) : List Report :=
  compareByName TConst.name (fun name => .warning ("Constants Missing " ++ name ++ " \n"))
    compareConst new old

/-- The comparisons of `audit`, once both programs are parsed. -/
def audit (new old : Program) : List Report :=
  compareNamespace new.info old.info ++ compareServices new.services old.services ++
    compareEnums new.enums old.enums ++ compareStructs new.structs old.structs ++
    compareStructs new.xceptions old.xceptions ++ compareConsts new.consts old.consts

end Sparsam.Audit
