import Mathlib.Algebra.Group.Int.Defs
import Sparsam.SortedMap
import Sparsam.ThriftScope

set_option autoImplicit false

/-!
# The grammar's actions

The syntax of a file as the grammar reads it, and what its actions do in the
pass over the definitions: every definition enters its program, the scope of
the program and, under the program's name, the scope of the one including it.
-/
namespace Sparsam.ThriftParser
open ThriftTypes ThriftScope

/-- `g_strict` and `g_allow_neg_field_keys`. -/
structure Flags where
  strict : ℤ := 127
  allowNegFieldKeys : Bool := false

inductive FieldType where
  | identifier (name : String)
  | baseType (base : TBase) (isBinary : Bool)
  | list (elem : FieldType)
  | set (elem : FieldType)
  | map (key val : FieldType)
deriving DecidableEq, Repr

inductive ReqKeyword where
  | required
  | optional
deriving DecidableEq, Repr

/-- The nonterminal `Field`; `xsdAttrs` is a field list of its own. -/
structure FieldDecl where
  doc : Option String := none
  identifier : Option Int64 := none
  requiredness : Option ReqKeyword := none
  type : FieldType
  name : String
  value : Option ConstValue := none
  xsdAttrs : Option (List FieldDecl) := none
  annotations : List (String × String) := []

structure FunctionDecl where
  oneway : Bool := false
  /-- `none` is `void`. -/
  returntype : Option FieldType
  name : String
  arglist : List FieldDecl
  throws : List FieldDecl := []

inductive Definition where
  | const (type : FieldType) (name : String) (value : ConstValue)
  | typedef (type : FieldType) (name : String)
  | enum (name : String) (values : List (String × Option Int64))
  | senum (name : String)
  | struct (isUnion : Bool) (name : String) (fields : List FieldDecl)
  | xception (name : String) (fields : List FieldDecl)
  | service (name : String) (extends_ : Option String) (functions : List FunctionDecl)

/-- A file: the literals of its `include` lines, its `namespace` lines and its
    definitions. -/
structure IdlFile where
  includes : List String := []
  namespaces : List (String × String) := []
  definitions : List Definition := []

/-- `m[key] = val` for each entry in turn, over a `std::map` of strings. -/
def mapOfEntries (es : List (String × String)) : List (String × String) :=
  es.foldl (fun m e => SortedMap.insertList e.1 e.2 m) []

def validateSimpleIdentifier (identifier : String) : Compile Unit :=
  if identifier.toList.contains '.' then
    failure ("Identifier " ++ identifier ++ " can't have a dot.")
  else pure ()

/-- What `FieldIdentifier` leaves: `value`, `auto_assigned` and `y_field_val`. -/
structure FieldId where
  value : Int32
  autoAssigned : Bool
  yFieldVal : Int32

def fieldIdentifier (flags : Flags) (yFieldVal : Int32) : Option Int64 → FieldId
  | some n =>
    if n ≤ 0 then
      if flags.allowNegFieldKeys then ⟨n.toInt32, false, (n - 1).toInt32⟩
      else ⟨yFieldVal, true, yFieldVal - 1⟩
    else ⟨n.toInt32, false, yFieldVal⟩
  | none => ⟨yFieldVal, true, yFieldVal - 1⟩

/-- `FieldRequiredness`; `arglist` is `g_arglist`. -/
def fieldRequiredness (arglist : Bool) : Option ReqKeyword → Req
  | some .required => .T_REQUIRED
  | some .optional => if arglist then .T_OPT_IN_REQ_OUT else .T_OPTIONAL
  | none => .T_OPT_IN_REQ_OUT

/-- `FieldType`: a name without a definition so far becomes a forward typedef. -/
def fieldType (program : TProgram) (scope : Scope) : FieldType → ThriftType
  | .identifier name => (scope.getType name).getD (.forwardTypedef program name)
  | .baseType base isBinary => .baseType base isBinary
  | .list elem => .list (fieldType program scope elem)
  | .set elem => .set (fieldType program scope elem)
  | .map key val => .map (fieldType program scope key) (fieldType program scope val)

section Fields
variable (flags : Flags) (scopes : String → Scope) (fuel : ℕ) (program : TProgram) (scope : Scope)

/-- `FieldValue` and what the action of `Field` does with it. -/
def fieldValue (name : String) (type : ThriftType) :
    Option ConstValue → Compile (Option ConstValue)
  | none => pure none
  | some value => do
    let value ← resolveConstValue scopes fuel scope type value
    validateConstRec name type value
    pure (some value)

/-- `FieldList -> FieldList Field` -/
def appendField (s : TStruct) (f : TField) : Compile TStruct := do
  match ← s.append f with
  | some s => pure s
  | none =>
    failure ("\"" ++ toString f.key.toInt ++ ": " ++ f.name ++
      "\" - field identifier/name has already been used")

mutual
/-- `Field`; the second component is `y_field_val` afterwards. -/
def field (arglist : Bool) (yFieldVal : Int32) : FieldDecl → Compile (TField × Int32)
  | ⟨doc, identifier, requiredness, type, name, value, xsdAttrs, annotations⟩ => do
    let id := fieldIdentifier flags yFieldVal identifier
    let yFieldVal ← xsdAttributes arglist id.yFieldVal xsdAttrs
    if id.autoAssigned ∧ flags.strict ≥ 192 then
      failure "Implicit field keys are deprecated and not allowed with -strict"
    else do
      validateSimpleIdentifier name
      let type := fieldType program scope type
      let value ← fieldValue scopes fuel scope name type value
      pure ({ type, name, key := id.value, req := fieldRequiredness arglist requiredness,
              value, annotations := mapOfEntries annotations, doc }, yFieldVal)

/-- `XsdAttributes`: a field list inside a field starts `y_field_val` again. -/
def xsdAttributes (arglist : Bool) (yFieldVal : Int32) :
    Option (List FieldDecl) → Compile Int32
  | none => pure yFieldVal
  | some fields => do
    let (_, yFieldVal) ← fieldListFrom arglist { program } (-1) fields
    pure yFieldVal

def fieldListFrom (arglist : Bool) (s : TStruct) (yFieldVal : Int32) :
    List FieldDecl → Compile (TStruct × Int32)
  | [] => pure (s, yFieldVal)
  | f :: fs => do
    let (f, yFieldVal) ← field arglist yFieldVal f
    let s ← appendField s f
    fieldListFrom arglist s yFieldVal fs
end

def fieldList (arglist : Bool) (fields : List FieldDecl) : Compile TStruct := do
  let (s, _) ← fieldListFrom flags scopes fuel program scope arglist { program } (-1) fields
  pure s

def struct (isUnion : Bool) (name : String) (fields : List FieldDecl) : Compile TStruct := do
  let s ← fieldList flags scopes fuel program scope false fields
  validateSimpleIdentifier name
  let s ← s.setUnion isUnion
  s.setName name

def xception (name : String) (fields : List FieldDecl) : Compile TStruct := do
  let s ← fieldList flags scopes fuel program scope false fields
  validateSimpleIdentifier name
  let s ← s.setName name
  pure (s.setXception true)

def validateThrows : List TField → Compile Unit
  | [] => pure ()
  | f :: fs => do
    match ← getTrueType scopes fuel f.type with
    | .struct s =>
      if s.isXception then validateThrows fs
      else failure "Throws clause may not contain non-exception types"
    | _ => failure "Throws clause may not contain non-exception types"

def function (decl : FunctionDecl) : Compile TFunction := do
  let returntype :=
    (decl.returntype.map (fieldType program scope)).getD (.baseType .TYPE_VOID false)
  let arglist ← fieldList flags scopes fuel program scope true decl.arglist
  let xceptions ← fieldList flags scopes fuel program scope true decl.throws
  validateThrows scopes fuel xceptions.members
  validateSimpleIdentifier decl.name
  let arglist ← arglist.setName (decl.name ++ "_args")
  if decl.oneway = true ∧ xceptions.members.isEmpty = false then
    failure "Oneway methods can't throw exceptions."
  else pure { returntype, name := decl.name, arglist, xceptions, oneway := decl.oneway }

/-- `FunctionList -> FunctionList Function` with `add_function` -/
def functionList (functions : List TFunction) : List FunctionDecl → Compile (List TFunction)
  | [] => pure functions
  | decl :: decls => do
    let func ← function flags scopes fuel program scope decl
    if functions.any fun f => f.name == func.name then
      failure ("Function " ++ func.name ++ " is already defined")
    else functionList (functions ++ [func]) decls

def extends_ : Option String → Compile (Option String)
  | none => pure none
  | some name =>
    match scope.getService name with
    | none => failure ("Service \"" ++ name ++ "\" has not been defined.")
    | some service => pure (some service.name)

def service (name : String) (parent : Option String) (functions : List FunctionDecl) :
    Compile TService := do
  let parent ← extends_ scope parent
  let functions ← functionList flags scopes fuel program scope [] functions
  validateSimpleIdentifier name
  pure { program, name, functions, extends_ := parent }

end Fields

/-- `EnumDefList`, with `y_enum_val` the value of the last constant. -/
def enumDefList (yEnumVal : Int32) : List (String × Option Int64) → Compile (List TEnumValue)
  | [] => pure []
  | (name, some n) :: vs =>
    if n.toInt < -2 ^ 31 ∨ 2 ^ 31 ≤ n.toInt then
      failure ("64-bit value supplied for enum " ++ name ++ " will be truncated.")
    else do pure (⟨name, n.toInt32⟩ :: (← enumDefList n.toInt32 vs))
  | (name, none) :: vs => do
    validateSimpleIdentifier name
    if yEnumVal = 2147483647 then failure ("enum value overflow at enum " ++ name)
    else do pure (⟨name, yEnumVal + 1⟩ :: (← enumDefList (yEnumVal + 1) vs))

/-- `Enum`; an explicit value's name may have a dot, the enum's may not. -/
def enum (program : TProgram) (name : String) (values : List (String × Option Int64)) :
    Compile TEnum := do
  let constants ← enumDefList (-1) values
  validateSimpleIdentifier name
  pure { program, name, constants }

/-- What a definition makes: a `t_const`, a `t_type` or a `t_service`. -/
inductive Entry where
  | const (tconst : TConst)
  | typedef (name : String) (type : ThriftType)
  | enum (tenum : TEnum)
  | object (tstruct : TStruct)
  | service (tservice : TService)

/-- What a `t_program` collects from its definitions. `structs` and `xceptions` are
    the objects of either kind. -/
structure Program where
  info : TProgram
  typedefs : List (String × ThriftType) := []
  enums : List TEnum := []
  consts : List TConst := []
  objects : List TStruct := []
  services : List TService := []

namespace Program

def structs (p : Program) : List TStruct := p.objects.filter fun s => !s.isXception

def xceptions (p : Program) : List TStruct := p.objects.filter fun s => s.isXception

/-- `add_const`, `add_typedef` and the like. -/
def add (p : Program) : Entry → Program
  | .const c => { p with consts := p.consts ++ [c] }
  | .typedef name type => { p with typedefs := p.typedefs ++ [(name, type)] }
  | .enum e => { p with enums := p.enums ++ [e] }
  | .object s => { p with objects := p.objects ++ [s] }
  | .service s => { p with services := p.services ++ [s] }

/-- The names `program_typename_count` goes through. -/
def typenames (p : Program) : List String :=
  p.typedefs.map Prod.fst ++ p.enums.map TEnum.name ++ p.objects.map TStructOf.name ++
    p.services.map TService.name

end Program

def getNamespace (p : TProgram) (language : String) : String :=
  ((p.namespaces.lookup language).or (p.namespaces.lookup "*")).getD ""

/-- `is_common_namespace` for a type of another program. -/
def isCommonNamespace (prog t : TProgram) : Bool :=
  (prog.namespaces.all fun ns => ns.2 == getNamespace t ns.1) &&
    t.namespaces.all fun ns => ns.2 == getNamespace prog ns.1

/-- `is_unique_typename`, before the type has entered its program. -/
def isUniqueTypename (p : Program) (includes : List Program) (name : String) : Bool :=
  !p.typenames.contains name &&
    includes.all fun q => !(q.typenames.contains name && isCommonNamespace q.info p.info)

def programName (path : String) : String :=
  let file := (path.toList.reverse.takeWhile (· ≠ '/')).reverse
  match ConstValue.afterDot file.reverse with
  | none => String.ofList file
  | some stem => String.ofList stem.reverse

/-- The globals of the pass over one file: `g_program`, `g_scope` and `g_parent_scope`. -/
structure Pass where
  program : Program
  scope : Scope
  parentScope : Option Scope

/-- The scopes as a typedef of this program or of one below it finds them. -/
def Pass.visibleScopes (p : Pass) (below : String → Scope) (path : String) : Scope :=
  if path = p.program.info.path then p.scope else below path

section Enter
variable (includes : List Program)

def parentPrefix (p : Pass) : String := programName p.program.info.path ++ "."

def addConstant (p : Pass) (name : String) (constant : TConst) : Compile Pass := do
  let scope ← p.scope.addConstant name constant
  match p.parentScope with
  | none => pure { p with scope }
  | some parent => do
    let parent ← parent.addConstant (parentPrefix p ++ name) constant
    pure { p with scope, parentScope := some parent }

def addEnumConstants (tenum : TEnum) (p : Pass) : List TEnumValue → Compile Pass
  | [] => pure p
  | v :: vs => do
    let constVal : ConstValue :=
      { valType := .CV_INTEGER, intVal := Int64.ofInt v.value.toInt, tenum := some tenum }
    let p ← addConstant p (tenum.name ++ "." ++ v.name)
      { type := .baseType .TYPE_I32 false, name := v.name, value := constVal }
    addEnumConstants tenum p vs

/-- `Definition -> TypeDefinition`: the type enters the scopes and must be unique. -/
def addType (p : Pass) (name : String) (type : ThriftType) : Compile Pass :=
  if isUniqueTypename p.program includes name then
    pure { p with
      scope := p.scope.addType name type
      parentScope := p.parentScope.map fun sc => sc.addType (parentPrefix p ++ name) type }
  else failure ("Type \"" ++ name ++ "\" is already defined.")

def addService (p : Pass) (service : TService) : Compile Pass :=
  if isUniqueTypename p.program includes service.name then
    pure { p with
      scope := p.scope.addService service.name service
      parentScope := p.parentScope.map fun sc =>
        sc.addService (parentPrefix p ++ service.name) service }
  else failure ("Type \"" ++ service.name ++ "\" is already defined.")

def enterScopes (p : Pass) : Entry → Compile Pass
  | .const c => addConstant p c.name c
  | .typedef name type => addType includes p name (.typedef p.program.info name type)
  | .enum e => do
    let p ← addEnumConstants e p e.constants
    addType includes p e.name (.enum e)
  | .object s => addType includes p s.name (.struct s)
  | .service s => addService includes p s

def enter (p : Pass) (e : Entry) : Compile Pass := do
  let p ← enterScopes includes p e
  pure { p with program := p.program.add e }

variable {includes}

theorem addConstant_program {p p' : Pass} {name : String} {c : TConst}
    (h : addConstant p name c = .ok p') : p'.program = p.program := by
  obtain ⟨scope, -, h⟩ := bind_ok h
  cases hparent : p.parentScope with
  | none =>
    rw [hparent] at h
    rw [← Except.ok.inj h]
  | some parent =>
    rw [hparent] at h
    obtain ⟨parent', -, h⟩ := bind_ok h
    rw [← Except.ok.inj h]

theorem addConstant_scope {p p' : Pass} {name : String} {c : TConst}
    (h : addConstant p name c = .ok p') : p.scope.addConstant name c = .ok p'.scope := by
  obtain ⟨scope, hscope, h⟩ := bind_ok h
  rw [hscope]
  cases hparent : p.parentScope with
  | none =>
    rw [hparent] at h
    rw [← Except.ok.inj h]
  | some parent =>
    rw [hparent] at h
    obtain ⟨parent', -, h⟩ := bind_ok h
    rw [← Except.ok.inj h]

theorem scopeAddConstant_ok {sc sc' : Scope} {name : String} {c : TConst}
    (h : sc.addConstant name c = .ok sc') :
    sc.constants.lookup name = none ∧ sc' = { sc with constants := (name, c) :: sc.constants } := by
  unfold Scope.addConstant at h
  split at h
  · cases h
  · rename_i hnew
    rw [← Except.ok.inj h]
    exact ⟨Option.not_isSome_iff_eq_none.mp hnew, rfl⟩

theorem addEnumConstants_program {tenum : TEnum} {p p' : Pass} {vs : List TEnumValue}
    (h : addEnumConstants tenum p vs = .ok p') : p'.program = p.program := by
  induction vs generalizing p with
  | nil => rw [← Except.ok.inj h]
  | cons v vs ih =>
    obtain ⟨q, hq, h⟩ := bind_ok h
    rw [ih h, addConstant_program hq]

theorem addType_ok {p p' : Pass} {name : String} {type : ThriftType}
    (h : addType includes p name type = .ok p') :
    isUniqueTypename p.program includes name = true ∧ p'.program = p.program ∧
      p'.scope = p.scope.addType name type := by
  unfold addType at h
  split at h
  · rename_i hunique
    rw [← Except.ok.inj h]
    exact ⟨hunique, rfl, rfl⟩
  · cases h

theorem addService_ok {p p' : Pass} {service : TService}
    (h : addService includes p service = .ok p') :
    isUniqueTypename p.program includes service.name = true ∧ p'.program = p.program ∧
      p'.scope = p.scope.addService service.name service := by
  unfold addService at h
  split at h
  · rename_i hunique
    rw [← Except.ok.inj h]
    exact ⟨hunique, rfl, rfl⟩
  · cases h

def Entry.type? (info : TProgram) : Entry → Option (String × ThriftType)
  | .typedef name type => some (name, .typedef info name type)
  | .enum e => some (e.name, .enum e)
  | .object s => some (s.name, .struct s)
  | .const _ | .service _ => none

theorem addConstant_types {p p' : Pass} {name : String} {c : TConst}
    (h : addConstant p name c = .ok p') :
    p'.scope.types = p.scope.types ∧
      p'.parentScope.map Scope.types = p.parentScope.map Scope.types := by
  have hadd : ∀ {sc sc' : Scope} {n : String}, sc.addConstant n c = .ok sc' →
      sc'.types = sc.types := by
    intro sc sc' n h
    rw [(scopeAddConstant_ok h).2]
  obtain ⟨scope, hscope, h⟩ := bind_ok h
  cases hparent : p.parentScope with
  | none =>
    rw [hparent] at h
    rw [← Except.ok.inj h]
    exact ⟨hadd hscope, rfl⟩
  | some parent =>
    rw [hparent] at h
    obtain ⟨parent', hparent', h⟩ := bind_ok h
    rw [← Except.ok.inj h]
    exact ⟨hadd hscope, congrArg some (hadd hparent')⟩

theorem addEnumConstants_types {tenum : TEnum} {p p' : Pass} {vs : List TEnumValue}
    (h : addEnumConstants tenum p vs = .ok p') :
    p'.scope.types = p.scope.types ∧
      p'.parentScope.map Scope.types = p.parentScope.map Scope.types := by
  induction vs generalizing p with
  | nil =>
    rw [← Except.ok.inj h]
    exact ⟨rfl, rfl⟩
  | cons v vs ih =>
    obtain ⟨q, hq, h⟩ := bind_ok h
    obtain ⟨h1, h2⟩ := addConstant_types hq
    rw [← h1, ← h2]
    exact ih h

/-- What a definition does to the types of the two scopes; its name was not taken. -/
structure EntersType (includes : List Program) (p p' : Pass) (e : Entry) : Prop where
  scope : p'.scope.types = (e.type? p.program.info).toList ++ p.scope.types
  parent : p'.parentScope.map Scope.types = p.parentScope.map fun sc =>
    (e.type? p.program.info).toList.map (fun t => (parentPrefix p ++ t.1, t.2)) ++ sc.types
  unique : ∀ t ∈ e.type? p.program.info, isUniqueTypename p.program includes t.1 = true

theorem addType_types {p p' : Pass} {name : String} {type : ThriftType}
    (h : addType includes p name type = .ok p') :
    p'.scope.types = (name, type) :: p.scope.types ∧
      p'.parentScope.map Scope.types =
        p.parentScope.map fun sc => (parentPrefix p ++ name, type) :: sc.types := by
  unfold addType at h
  split at h
  · rw [← Except.ok.inj h]
    refine ⟨rfl, ?_⟩
    cases p.parentScope <;> rfl
  · cases h

theorem enterScopes_type {p p' : Pass} {e : Entry} (h : enterScopes includes p e = .ok p') :
    EntersType includes p p' e := by
  cases e with
  | const c =>
    obtain ⟨h1, h2⟩ := addConstant_types h
    exact ⟨h1, h2, fun t ht => nomatch ht⟩
  | typedef name type =>
    obtain ⟨h1, h2⟩ := addType_types h
    refine ⟨h1, h2, fun t ht => ?_⟩
    obtain rfl := Option.some.inj ht
    exact (addType_ok h).1
  | enum tenum =>
    obtain ⟨q, hq, h⟩ := bind_ok h
    obtain ⟨h1, h2⟩ := addType_types h
    obtain ⟨hq1, hq2⟩ := addEnumConstants_types hq
    have hprogram := addEnumConstants_program hq
    refine ⟨by rw [h1, hq1]; rfl, ?_, fun t ht => ?_⟩
    · rw [h2]
      have hmap := congrArg (Option.map fun ts =>
        (parentPrefix q ++ tenum.name, ThriftType.enum tenum) :: ts) hq2
      simp only [Option.map_map] at hmap
      unfold parentPrefix at hmap ⊢
      rw [hprogram] at hmap ⊢
      exact hmap
    · obtain rfl := Option.some.inj ht
      have hunique := (addType_ok h).1
      rw [hprogram] at hunique
      exact hunique
  | object s =>
    obtain ⟨h1, h2⟩ := addType_types h
    refine ⟨h1, h2, fun t ht => ?_⟩
    obtain rfl := Option.some.inj ht
    exact (addType_ok h).1
  | service s =>
    unfold enterScopes addService at h
    dsimp only at h
    split at h
    · rw [← Except.ok.inj h]
      refine ⟨rfl, ?_, fun t ht => nomatch ht⟩
      cases p.parentScope <;> rfl
    · cases h

theorem enter_type {p p' : Pass} {e : Entry} (h : enter includes p e = .ok p') :
    EntersType includes p p' e := by
  obtain ⟨q, hq, h⟩ := bind_ok h
  rw [← Except.ok.inj h]
  obtain ⟨hscope, hparent, hunique⟩ := enterScopes_type hq
  exact ⟨hscope, hparent, hunique⟩

theorem enter_program {p p' : Pass} {e : Entry} (h : enter includes p e = .ok p') :
    p'.program = p.program.add e := by
  obtain ⟨q, hq, h⟩ := bind_ok h
  rw [← Except.ok.inj h]
  suffices q.program = p.program by rw [this]
  cases e with
  | const c => exact addConstant_program hq
  | typedef name type => exact (addType_ok hq).2.1
  | enum tenum =>
    obtain ⟨r, hr, hq⟩ := bind_ok hq
    rw [(addType_ok hq).2.1, addEnumConstants_program hr]
  | object s => exact (addType_ok hq).2.1
  | service s => exact (addService_ok hq).2.1

end Enter

section Definitions
variable (flags : Flags) (scopes : String → Scope) (fuel : ℕ) (includes : List Program)

def elaborate (info : TProgram) (scope : Scope) : Definition → Compile Entry
  | .const type name value => do
    validateSimpleIdentifier name
    let type := fieldType info scope type
    let value ← resolveConstValue scopes fuel scope type value
    validateConstRec name type value
    pure (.const ⟨type, name, value⟩)
  | .typedef type name => do
    validateSimpleIdentifier name
    pure (.typedef name (fieldType info scope type))
  | .enum name values => do pure (.enum (← enum info name values))
  | .senum name => do
    validateSimpleIdentifier name
    pure (.typedef name (.baseType .TYPE_STRING false))
  | .struct isUnion name fields => do
    pure (.object (← struct flags scopes fuel info scope isUnion name fields))
  | .xception name fields => do
    pure (.object (← xception flags scopes fuel info scope name fields))
  | .service name parent functions => do
    pure (.service (← service flags scopes fuel info scope name parent functions))

def definition (p : Pass) (d : Definition) : Compile Pass := do
  let e ← elaborate flags (p.visibleScopes scopes) fuel p.program.info p.scope d
  enter includes p e

/-- The pass over a file whose includes are done: `scope` is what they left. -/
def parseProgram (path : String) (file : IdlFile) (scope : Scope) (parentScope : Option Scope) :
    Compile Pass :=
  file.definitions.foldlM (definition flags scopes fuel includes)
    { program := { info := { path, namespaces := mapOfEntries file.namespaces } }
      scope, parentScope }

variable {flags scopes fuel includes}

/-- What every definition that is accepted preserves, the pass preserves. -/
theorem definitions_invariant {P : Pass → Prop} {ds : List Definition} {p p' : Pass}
    (h : ds.foldlM (definition flags scopes fuel includes) p = .ok p') (hp : P p)
    (step : ∀ d ∈ ds, ∀ q q' e, P q →
      elaborate flags (q.visibleScopes scopes) fuel q.program.info q.scope d = .ok e →
      enter includes q e = .ok q' → P q') : P p' := by
  induction ds generalizing p with
  | nil =>
    obtain rfl := Except.ok.inj h
    exact hp
  | cons d ds ih =>
    obtain ⟨q, hq, h⟩ := bind_ok h
    obtain ⟨e, he, hq⟩ := bind_ok hq
    exact ih h (step d (by simp) p q e hp he hq) fun d hd => step d (by simp [hd])

theorem definitions_info {ds : List Definition} {p p' : Pass}
    (h : ds.foldlM (definition flags scopes fuel includes) p = .ok p') :
    p'.program.info = p.program.info := by
  refine definitions_invariant (P := fun q => q.program.info = p.program.info) h rfl ?_
  intro d _ q q' e hq _ henter
  rw [← hq, enter_program henter]
  cases e <;> rfl

theorem parseProgram_info {path : String} {file : IdlFile} {scope : Scope}
    {parent : Option Scope} {p : Pass}
    (h : parseProgram flags scopes fuel includes path file scope parent = .ok p) :
    p.program.info = { path, namespaces := mapOfEntries file.namespaces } :=
  definitions_info h

end Definitions

section IncludesPass
variable (flags : Flags)

mutual
/-- A field in the include pass: `FieldValue` is NULL there. -/
def FieldDecl.withoutValue : FieldDecl → FieldDecl
  | ⟨doc, identifier, requiredness, type, name, _, xsdAttrs, annotations⟩ =>
    ⟨doc, identifier, requiredness, type, name, none, attrsWithoutValues xsdAttrs, annotations⟩

def attrsWithoutValues : Option (List FieldDecl) → Option (List FieldDecl)
  | none => none
  | some fields => some (fieldsWithoutValues fields)

def fieldsWithoutValues : List FieldDecl → List FieldDecl
  | [] => []
  | f :: fs => f.withoutValue :: fieldsWithoutValues fs
end

/-- `FieldList` in the include pass, where no name has a type yet. -/
def scanFieldList (arglist : Bool) (fields : List FieldDecl) : Compile TStruct :=
  fieldList flags (fun _ => {}) 0 ⟨"", []⟩ {} arglist (fieldsWithoutValues fields)

/-- `FunctionList` in the include pass; `validate_throws` is not run. -/
def scanFunctionList (names : List String) : List FunctionDecl → Compile Unit
  | [] => pure ()
  | decl :: decls => do
    let _ ← scanFieldList flags true decl.arglist
    let xceptions ← scanFieldList flags true decl.throws
    validateSimpleIdentifier decl.name
    if decl.oneway = true ∧ xceptions.members.isEmpty = false then
      failure "Oneway methods can't throw exceptions."
    else if names.contains decl.name then
      failure ("Function " ++ decl.name ++ " is already defined")
    else scanFunctionList (names ++ [decl.name]) decls

/-- A definition in the include pass: what its rule still checks. -/
def scanDefinition : Definition → Compile Unit
  | .const _ _ _ => pure ()
  | .typedef _ name | .senum name => validateSimpleIdentifier name
  | .enum name values => do
    let _ ← enum ⟨"", []⟩ name values
    pure ()
  | .struct isUnion name fields => do
    let s ← scanFieldList flags false fields
    validateSimpleIdentifier name
    let s ← s.setUnion isUnion
    let _ ← s.setName name
    pure ()
  | .xception name fields => do
    let _ ← scanFieldList flags false fields
    validateSimpleIdentifier name
  | .service name _ functions => do
    scanFunctionList flags [] functions
    validateSimpleIdentifier name

end IncludesPass

end Sparsam.ThriftParser
