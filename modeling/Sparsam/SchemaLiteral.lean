import Sparsam.RubyNames
import Sparsam.RubyRuntime

set_option autoImplicit false

/-!
# The literals the generator prints

A class body holds one hash literal, `FIELDS`, with a hash for every member and,
inside it, hashes for the types of its containers and the literal of its
default. Layout is left out here: a literal is the tree that Ruby reads.
-/
namespace Sparsam.SchemaLiteral
open ThriftTypes ThriftScope ThriftParser IncludeProcessing RubyNames
open RubyRuntime (Superclass)

/-- The constants of `Sparsam::Types` that `type_to_enum` prints. -/
inductive TypesName where
  | STRING
  | BOOL
  | BYTE
  | I16
  | I32
  | I64
  | DOUBLE
  | STRUCT
  | MAP
  | SET
  | LIST
deriving DecidableEq, Repr

def TypesName.text : TypesName → String
  | .STRING => "STRING"
  | .BOOL => "BOOL"
  | .BYTE => "BYTE"
  | .I16 => "I16"
  | .I32 => "I32"
  | .I64 => "I64"
  | .DOUBLE => "DOUBLE"
  | .STRUCT => "STRUCT"
  | .MAP => "MAP"
  | .SET => "SET"
  | .LIST => "LIST"

inductive Literal where
  /-- `%q"text"` -/
  | percentQ (text : String)
  | quoted (text : String)
  | bool (b : Bool)
  | int (n : ℤ)
  | double (d : UInt64)
  /-- `:name`, as a key before `=>` -/
  | sym (name : String)
  /-- `::Sparsam::Types::NAME` -/
  | types (name : TypesName)
  | klass (path : List String)
  | enumModule (path : List String)
  | array (xs : List Literal)
  | set (xs : List Literal)
  | hash (es : List (Literal × Literal))
  | new (klass : List String) (es : List (Literal × Literal))

namespace Literal

mutual
/-- The class constants that are read when the literal is evaluated, in order. -/
def classes : Literal → List (List String)
  | .klass path => [path]
  | .array xs | .set xs => classesOfList xs
  | .hash es => classesOfEntries es
  | .new path es => path :: classesOfEntries es
  | _ => []

def classesOfList : List Literal → List (List String)
  | [] => []
  | x :: xs => classes x ++ classesOfList xs

def classesOfEntries : List (Literal × Literal) → List (List String)
  | [] => []
  | (k, v) :: es => classes k ++ classes v ++ classesOfEntries es
end

mutual
def enumModules : Literal → List (List String)
  | .enumModule path => [path]
  | .array xs | .set xs => enumModulesOfList xs
  | .hash es | .new _ es => enumModulesOfEntries es
  | _ => []

def enumModulesOfList : List Literal → List (List String)
  | [] => []
  | x :: xs => enumModules x ++ enumModulesOfList xs

def enumModulesOfEntries : List (Literal × Literal) → List (List String)
  | [] => []
  | (k, v) :: es => enumModules k ++ enumModules v ++ enumModulesOfEntries es
end

theorem classesOfEntries_append (es es' : List (Literal × Literal)) :
    classesOfEntries (es ++ es') = classesOfEntries es ++ classesOfEntries es' := by
  induction es with
  | nil => rfl
  | cons e es ih =>
    obtain ⟨k, v⟩ := e
    simp only [List.cons_append, classesOfEntries, ih, List.append_assoc]

theorem enumModulesOfEntries_append (es es' : List (Literal × Literal)) :
    enumModulesOfEntries (es ++ es') = enumModulesOfEntries es ++ enumModulesOfEntries es' := by
  induction es with
  | nil => rfl
  | cons e es ih =>
    obtain ⟨k, v⟩ := e
    simp only [List.cons_append, enumModulesOfEntries, ih, List.append_assoc]

end Literal

def escapeString (s : String) : String :=
  String.ofList <| s.toList.flatMap fun c =>
    if c = '\n' then ['\\', 'n']
    else if c = '\r' then ['\\', 'r']
    else if c = '\t' then ['\\', 't']
    else if c = '"' then ['\\', '"']
    else if c = '\\' then ['\\', '\\']
    else [c]

section Render
variable (scopes : String → Scope) (fuel : ℕ)

/-- The branch of `render_const_value` for a base type. -/
def renderBase (base : TBase) (value : ConstValue) : Compile Literal :=
  match base with
  | .TYPE_STRING => pure (.percentQ (escapeString value.stringVal))
  | .TYPE_BOOL => do pure (.bool (decide (0 < (← value.getInteger).toInt)))
  | .TYPE_BYTE | .TYPE_I16 | .TYPE_I32 | .TYPE_I64 => do pure (.int (← value.getInteger).toInt)
  | .TYPE_DOUBLE =>
    if value.valType = .CV_INTEGER then do pure (.int (← value.getInteger).toInt)
    else pure (.double value.doubleVal)
  | .TYPE_VOID => failure ("compiler error: no const of base type " ++ tBaseName base)

mutual
def renderConstValue : ThriftType → ConstValue → Compile Literal := fun type value =>
  match value with
  | ⟨t, es, xs, s, n, d, i, e⟩ => do
    let type ← getTrueType scopes fuel type
    match type with
    | .baseType base _ => renderBase base ⟨t, es, xs, s, n, d, i, e⟩
    | .enum _ => do pure (.int (← ConstValue.getInteger ⟨t, es, xs, s, n, d, i, e⟩).toInt)
    | .struct tstruct => do
      pure (.new (constantPath tstruct.program tstruct.name) (← renderFields tstruct es))
    | .map ktype vtype => do pure (.hash (← renderEntries ktype vtype es))
    | .list etype => do pure (.array (← renderElems etype xs))
    | .set etype => do pure (.set (← renderElems etype xs))
    | .typedef _ _ _ | .forwardTypedef _ _ =>
      failure ("CANNOT GENERATE CONSTANT FOR TYPE: " ++ type.getName)

def renderFields (tstruct : TStruct) :
    List (ConstValue × ConstValue) → Compile (List (Literal × Literal))
  | [] => pure []
  | (k, v) :: es =>
    match memberType tstruct k.stringVal with
    | none => failure ("type error: " ++ tstruct.name ++ " has no field " ++ k.stringVal)
    | some fieldType => do
      let value ← renderConstValue fieldType v
      pure ((.percentQ (escapeString k.stringVal), value) :: (← renderFields tstruct es))

def renderEntries (ktype vtype : ThriftType) :
    List (ConstValue × ConstValue) → Compile (List (Literal × Literal))
  | [] => pure []
  | (k, v) :: es => do
    let key ← renderConstValue ktype k
    let value ← renderConstValue vtype v
    pure ((key, value) :: (← renderEntries ktype vtype es))

def renderElems (etype : ThriftType) : List ConstValue → Compile (List Literal)
  | [] => pure []
  | x :: xs => do
    let elem ← renderConstValue etype x
    pure (elem :: (← renderElems etype xs))
end

/-- `type_to_enum`, for a type that is no typedef. -/
def typeToEnum : ThriftType → Compile Literal
  | .baseType base _ =>
    match base with
    | .TYPE_VOID => failure "NO T_VOID CONSTRUCT"
    | .TYPE_STRING => pure (.types .STRING)
    | .TYPE_BOOL => pure (.types .BOOL)
    | .TYPE_BYTE => pure (.types .BYTE)
    | .TYPE_I16 => pure (.types .I16)
    | .TYPE_I32 => pure (.types .I32)
    | .TYPE_I64 => pure (.types .I64)
    | .TYPE_DOUBLE => pure (.types .DOUBLE)
  | .enum _ => pure (.types .I32)
  | .struct _ => pure (.types .STRUCT)
  | .map _ _ => pure (.types .MAP)
  | .set _ => pure (.types .SET)
  | .list _ => pure (.types .LIST)
  | .typedef _ symbolic _ | .forwardTypedef _ symbolic =>
    failure ("INVALID TYPE IN type_to_enum: " ++ symbolic)

/-- The arguments of `generate_field_data` beside the type, with their defaults. -/
structure FieldArgs where
  fieldName : String := ""
  fieldValue : Option ConstValue := none
  optional : Bool := false
  annotations : Option (List (String × String)) := none

def defaultEntry (type : ThriftType) : Option ConstValue → Compile (List (Literal × Literal))
  | none => pure []
  | some value => do pure [(.sym "default", ← renderConstValue scopes fuel type value)]

def annotationsEntry : Option (List (String × String)) → List (Literal × Literal)
  | none => []
  | some es =>
    [(.sym "annotations", .hash (es.map fun e => (Literal.quoted e.1, Literal.quoted e.2)))]

/-- What `generate_field_data` prints about the type itself; `nested` is the
    recursive call for the types of a container. -/
def typeEntries (nested : ThriftType → Compile Literal) :
    ThriftType → Compile (List (Literal × Literal))
  | .struct s => pure [(.sym "class", .klass (constantPath s.program s.name))]
  | .list e | .set e => do pure [(.sym "element", ← nested e)]
  | .map k v => do pure [(.sym "key", ← nested k), (.sym "value", ← nested v)]
  | .baseType _ isBinary => pure (if isBinary then [(.sym "binary", .bool true)] else [])
  | _ => pure []

def enumEntry : ThriftType → List (Literal × Literal)
  | .enum e => [(.sym "enum_class", .enumModule (constantPath e.program e.name))]
  | _ => []

/-- `generate_field_data`, its recursion at most `depth` deep. -/
def generateFieldData : ℕ → ThriftType → FieldArgs → Compile Literal
  | 0, _, _ => throw .outOfFuel
  | depth + 1, fieldType, args => do
    let fieldType ← getTrueType scopes fuel fieldType
    let ttype ← typeToEnum fieldType
    let default ← defaultEntry scopes fuel fieldType args.fieldValue
    let entries ← typeEntries (fun t => generateFieldData depth t {}) fieldType
    pure <| .hash <| [(.sym "type", ttype)] ++
      (if args.fieldName = "" then [] else [(.sym "name", .quoted args.fieldName)]) ++ default ++
      entries ++ (if args.optional then [(.sym "optional", .bool true)] else []) ++
      enumEntry fieldType ++ annotationsEntry args.annotations

def fieldArgs (f : TField) : FieldArgs where
  fieldName := f.name
  fieldValue := f.value
  optional := decide (f.req = .T_OPTIONAL)
  annotations := some f.annotations

def fieldEntry (f : TField) : Compile (Literal × Literal) := do
  pure (.int f.key.toInt, ← generateFieldData scopes fuel fuel f.type (fieldArgs f))

def generateFieldDefns (tstruct : TStruct) : Compile Literal := do
  pure (.hash (← tstruct.members.mapM (fieldEntry scopes fuel)))

structure ClassStatement where
  path : List String
  superclass : Superclass
  fields : Literal

/-- `generate_rb_struct`, in the modules of the program `p`. -/
def generateRbStruct (p : TProgram) (tstruct : TStruct) : Compile ClassStatement := do
  let fields ← generateFieldDefns scopes fuel tstruct
  pure {
    path := constantPath p tstruct.name
    superclass :=
      if tstruct.isUnion then .union
      else if tstruct.isXception then .applicationException
      else .struct
    fields }

/-- The class statements of the types file, in declared order; the modules of the
    enums come before them. -/
def generateProgram (p : Program) : Compile (List ClassStatement) :=
  p.objects.mapM (generateRbStruct scopes fuel p.info)

end Render

end Sparsam.SchemaLiteral
