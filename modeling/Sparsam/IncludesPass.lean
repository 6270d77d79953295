import Sparsam.FieldLists
import Sparsam.StopSequences

set_option autoImplicit false

/-!
# Null pointers in the pass over the includes

The actions of the grammar in the include mode, where a named type, a constant
and a default value are `NULL`: which files they go through without a use of
such a pointer. What only the other mode does is left out, and so is what no
action reads: documentation, flags of XSD and the headers.
-/
namespace Sparsam.IncludesPass
open ThriftTypes ThriftParser FieldLists StopSequences

inductive SimpleBaseType where
  | tok_string
  | tok_binary
  | tok_slist
  | tok_bool
  | tok_byte
  | tok_i16
  | tok_i32
  | tok_i64
  | tok_double
deriving DecidableEq, Repr

/-- `TypeAnnotations`: the keys, each with its value if it has one. -/
abbrev Annotations := Option (List (String × Option String))

/-- `FieldType`, with the annotations and the C++ types that the grammar allows. -/
inductive TypeSyntax where
  | identifier (name : String)
  | baseType (base : SimpleBaseType) (annotations : Annotations)
  | list (elem : TypeSyntax) (cppType : Option String) (annotations : Annotations)
  | set (cppType : Option String) (elem : TypeSyntax) (annotations : Annotations)
  | map (cppType : Option String) (key val : TypeSyntax) (annotations : Annotations)

inductive ConstSyntax where
  | tok_int_constant (n : Int64)
  | tok_dub_constant (d : UInt64)
  | tok_literal (s : String)
  | tok_identifier (name : String)
  | list (elems : List ConstSyntax)
  | map (entries : List (ConstSyntax × ConstSyntax))

structure FieldSyntax where
  identifier : Option Int64
  requiredness : Option ReqKeyword
  type : TypeSyntax
  name : String
  value : Option ConstSyntax
  xsdAttrs : Option (List FieldSyntax)
  annotations : Annotations

structure FunctionSyntax where
  oneway : Bool
  /-- `none` is `void`. -/
  returntype : Option TypeSyntax
  name : String
  arglist : List FieldSyntax
  throws : Option (List FieldSyntax)
  annotations : Annotations
  resources : Annotations

structure EnumSyntax where
  name : String
  value : Option Int64
  annotations : Annotations

inductive DefinitionSyntax where
  | const (type : TypeSyntax) (name : String) (value : ConstSyntax)
  | typedef (type : TypeSyntax) (name : String) (annotations : Annotations)
  | enum (name : String) (values : List EnumSyntax) (annotations : Annotations)
  | senum (name : String) (values : List String) (annotations : Annotations)
  | struct (isUnion : Bool) (name : String) (fields : List FieldSyntax) (annotations : Annotations)
  | xception (name : String) (fields : List FieldSyntax) (annotations : Annotations)
  | service (name : String) (extends_ : Option String) (functions : List FunctionSyntax)
      (annotations resources : Annotations)

/-- `t_type`, as far as field types reach; a type in a container may be `NULL`. -/
inductive TType where
  | baseType (base : TBase) (isBinary : Bool)
  | list (elem : Option TType)
  | set (elem : Option TType)
  | map (key val : Option TType)

def TType.isVoid : TType → Bool
  | .baseType .TYPE_VOID _ => true
  | _ => false

structure TFunction where
  returntype : Option TType
  name : String
  arglist : TStructOf (Option TType)
  xceptions : TStructOf (Option TType)
  oneway : Bool

inductive Stop where
  | failure (e : CompileError)
  | nullPointer
deriving DecidableEq, Repr

abbrev Scan := Except Stop

def ofCompile {α : Type} : Compile α → Scan α
  | .ok a => .ok a
  | .error e => .error (.failure e)

def deref {α : Type} : Option α → Scan α
  | some a => .ok a
  | none => .error .nullPointer

/-- `TypeAnnotations`; `NULL` where there are none. -/
def typeAnnotations (annotations : Annotations) : Option (List (String × String)) :=
  annotations.map fun as => mapOfEntries (as.map fun a => (a.1, a.2.getD "1"))

/-- `if ($2 != NULL) $$->annotations_ = $2->annotations_` -/
def setAnnotations {α : Type} (object : Option α) (annotations : Annotations) : Scan Unit :=
  if (typeAnnotations annotations).isSome then do
    let _ ← deref object
    let _ ← deref (typeAnnotations annotations)
    pure ()
  else pure ()

/-- `if ($2 != NULL) ((t_container*)$$)->set_cpp_name(std::string($2))` -/
def setCppName (object : Option TType) (cppType : Option String) : Scan Unit :=
  if cppType.isSome then do
    let _ ← deref object
    let _ ← deref cppType
    pure ()
  else pure ()

def simpleBaseType : SimpleBaseType → Option TType
  | .tok_string | .tok_slist => some (.baseType .TYPE_STRING false)
  | .tok_binary => some (.baseType .TYPE_STRING true)
  | .tok_bool => some (.baseType .TYPE_BOOL false)
  | .tok_byte => some (.baseType .TYPE_BYTE false)
  | .tok_i16 => some (.baseType .TYPE_I16 false)
  | .tok_i32 => some (.baseType .TYPE_I32 false)
  | .tok_i64 => some (.baseType .TYPE_I64 false)
  | .tok_double => some (.baseType .TYPE_DOUBLE false)

/-- `FieldType`: identifiers are ignored in the include mode. -/
def fieldType : TypeSyntax → Scan (Option TType)
  | .identifier _ => pure none
  | .baseType base annotations => do
    let type := simpleBaseType base
    if (typeAnnotations annotations).isSome then do
      let copy ← deref type
      setAnnotations (some copy) annotations
      pure (some copy)
    else pure type
  | .list elem cppType annotations => do
    let elem ← fieldType elem
    let type := some (TType.list elem)
    setCppName type cppType
    setAnnotations type annotations
    pure type
  | .set cppType elem annotations => do
    let elem ← fieldType elem
    let type := some (TType.set elem)
    setCppName type cppType
    setAnnotations type annotations
    pure type
  | .map cppType key val annotations => do
    let key ← fieldType key
    let val ← fieldType val
    let type := some (TType.map key val)
    setCppName type cppType
    setAnnotations type annotations
    pure type

mutual
/-- `ConstValue`; the entries of a map are kept in the order of the text. -/
def constValue : ConstSyntax → Scan (Option ConstValue)
  | .tok_int_constant n => pure (some { valType := .CV_INTEGER, intVal := n })
  | .tok_dub_constant d => pure (some { valType := .CV_DOUBLE, doubleVal := d })
  | .tok_literal s => pure (some { valType := .CV_STRING, stringVal := s })
  | .tok_identifier name => pure (some { valType := .CV_IDENTIFIER, identifierVal := name })
  | .list elems => constListContents (some { valType := .CV_LIST }) elems
  | .map entries => constMapContents (some { valType := .CV_MAP }) entries

def constListContents (value : Option ConstValue) : List ConstSyntax → Scan (Option ConstValue)
  | [] => pure value
  | elem :: elems => do
    let elem ← constValue elem
    let cv ← deref value
    let elem ← deref elem
    constListContents (some { cv with listVal := cv.listVal ++ [elem] }) elems

def constMapContents (value : Option ConstValue) :
    List (ConstSyntax × ConstSyntax) → Scan (Option ConstValue)
  | [] => pure value
  | (key, val) :: entries => do
    let key ← constValue key
    let val ← constValue val
    let cv ← deref value
    let key ← deref key
    let val ← deref val
    constMapContents (some { cv with mapVal := cv.mapVal ++ [(key, val)] }) entries
end

/-- `FieldValue`: a default value is read and dropped. -/
def fieldValue : Option ConstSyntax → Scan (Option ConstValue)
  | none => pure none
  | some value => do
    let _ ← constValue value
    pure none

section Fields
variable (flags : Flags)

/-- `FieldList -> FieldList Field` -/
def appendField (s : TStructOf (Option TType)) (f : TFieldOf (Option TType)) :
    Scan (TStructOf (Option TType)) := do
  match ← ofCompile (s.append f) with
  | some s => pure s
  | none =>
    ofCompile (failure ("\"" ++ toString f.key.toInt ++ ": " ++ f.name ++
      "\" - field identifier/name has already been used"))

/-- What `Field` does with a value that is not `NULL`: `resolve_const_value` and
    `validate_field_value` read the type. -/
def resolveValue (type : Option TType) (value : Option ConstValue) : Scan Unit :=
  if value.isSome then do
    let _ ← deref type
    let _ ← deref value
    pure ()
  else pure ()

mutual
/-- `Field`; the second component is `y_field_val` afterwards. -/
def field (arglist : Bool) (yFieldVal : Int32) :
    FieldSyntax → Scan (TFieldOf (Option TType) × Int32)
  | ⟨identifier, requiredness, type, name, value, xsdAttrs, annotations⟩ => do
    let id := fieldIdentifier flags yFieldVal identifier
    let type ← fieldType type
    let value ← fieldValue value
    let yFieldVal ← xsdAttributes arglist id.yFieldVal xsdAttrs
    if id.autoAssigned ∧ flags.strict ≥ 192 then
      ofCompile (failure "Implicit field keys are deprecated and not allowed with -strict")
    else do
      ofCompile (validateSimpleIdentifier name)
      let f : TFieldOf (Option TType) :=
        { type, name, key := id.value, req := fieldRequiredness arglist requiredness, value }
      resolveValue type value
      setAnnotations (some f) annotations
      pure (f, yFieldVal)

def xsdAttributes (arglist : Bool) (yFieldVal : Int32) : Option (List FieldSyntax) → Scan Int32
  | none => pure yFieldVal
  | some fields => do
    let (_, yFieldVal) ← fieldListFrom arglist { program := ⟨"", []⟩ } (-1) fields
    pure yFieldVal

def fieldListFrom (arglist : Bool) (s : TStructOf (Option TType)) (yFieldVal : Int32) :
    List FieldSyntax → Scan (TStructOf (Option TType) × Int32)
  | [] => pure (s, yFieldVal)
  | f :: fs => do
    let (f, yFieldVal) ← field arglist yFieldVal f
    let s ← appendField s f
    fieldListFrom arglist s yFieldVal fs
end

def fieldList (arglist : Bool) (fields : List FieldSyntax) : Scan (TStructOf (Option TType)) := do
  let (s, _) ← fieldListFrom flags arglist { program := ⟨"", []⟩ } (-1) fields
  pure s

def struct (isUnion : Bool) (name : String) (fields : List FieldSyntax)
    (annotations : Annotations) : Scan Unit := do
  let s ← fieldList flags false fields
  ofCompile (validateSimpleIdentifier name)
  let s ← ofCompile (s.setUnion isUnion)
  let s ← ofCompile (s.setName name)
  setAnnotations (some s) annotations

def xception (name : String) (fields : List FieldSyntax) (annotations : Annotations) :
    Scan Unit := do
  let s ← fieldList flags false fields
  ofCompile (validateSimpleIdentifier name)
  let s ← ofCompile (s.setName name)
  setAnnotations (some (s.setXception true)) annotations

def functionType : Option TypeSyntax → Scan (Option TType)
  | some type => fieldType type
  | none => pure (some (.baseType .TYPE_VOID false))

/-- `Throws`; the exceptions are not looked at in the include mode. -/
def throws : Option (List FieldSyntax) → Scan (TStructOf (Option TType))
  | some fields => fieldList flags true fields
  | none => pure { program := ⟨"", []⟩ }

/-- The constructor of `t_function`. -/
def newFunction (returntype : Option TType) (name : String)
    (arglist xceptions : TStructOf (Option TType)) (oneway : Bool) : Scan TFunction :=
  if oneway = true ∧ xceptions.members.isEmpty = false then
    ofCompile (failure "Oneway methods can't throw exceptions.")
  else if oneway then do
    let type ← deref returntype
    let _ := type.isVoid -- a warning where it is not
    pure { returntype, name, arglist, xceptions, oneway }
  else pure { returntype, name, arglist, xceptions, oneway }

def function (decl : FunctionSyntax) : Scan TFunction := do
  let returntype ← functionType decl.returntype
  let arglist ← fieldList flags true decl.arglist
  let xceptions ← throws flags decl.throws
  ofCompile (validateSimpleIdentifier decl.name)
  let arglist ← ofCompile (arglist.setName (decl.name ++ "_args"))
  let func ← newFunction returntype decl.name arglist xceptions decl.oneway
  setAnnotations (some func) decl.annotations
  pure func

/-- `FunctionList -> FunctionList Function` with `add_function` -/
def functionList (functions : List TFunction) : List FunctionSyntax → Scan (List TFunction)
  | [] => pure functions
  | decl :: decls => do
    let func ← function flags decl
    if functions.any fun f => f.name == func.name then
      ofCompile (failure ("Function " ++ func.name ++ " is already defined"))
    else functionList (functions ++ [func]) decls

def service (name : String) (functions : List FunctionSyntax)
    (annotations resources : Annotations) : Scan Unit := do
  let functions ← functionList flags [] functions
  ofCompile (validateSimpleIdentifier name)
  setAnnotations (some functions) annotations
  setAnnotations (some functions) resources

def enum (name : String) (values : List EnumSyntax) (annotations : Annotations) : Scan Unit := do
  values.forM fun v => setAnnotations (some v.name) v.annotations
  let e ← ofCompile (ThriftParser.enum ⟨"", []⟩ name (values.map fun v => (v.name, v.value)))
  setAnnotations (some e) annotations

/-- `Typedef` and `Senum` -/
def typedef (type : Option TType) (name : String) (annotations : Annotations) : Scan Unit := do
  ofCompile (validateSimpleIdentifier name)
  setAnnotations (some (type, name)) annotations

/-- `Definition`; a constant is `NULL`, and there is no documentation to give it. -/
def definition : DefinitionSyntax → Scan Unit
  | .const type _ value => do
    let _ ← fieldType type
    let _ ← constValue value
    pure ()
  | .typedef type name annotations => do
    let type ← fieldType type
    typedef type name annotations
  | .enum name values annotations => enum name values annotations
  | .senum name _ annotations => typedef (some (.baseType .TYPE_STRING false)) name annotations
  | .struct isUnion name fields annotations => struct flags isUnion name fields annotations
  | .xception name fields annotations => xception flags name fields annotations
  | .service name _ functions annotations resources =>
    service flags name functions annotations resources

def scanFile (ds : List DefinitionSyntax) : Scan Unit := ds.forM (definition flags)

end Fields

namespace FunctionSyntax

def named (decl : FunctionSyntax) : Bool :=
  match decl.returntype with
  | some (.identifier _) => true
  | _ => false

def exceptions (decl : FunctionSyntax) : List FieldSyntax := decl.throws.getD []

end FunctionSyntax

/-- A place where the pass may stop, with what decides it. -/
inductive Item where
  | identifier (name : String)
  | fieldKey (autoAssigned : Bool)
  | member (earlier : List (Int32 × String)) (key : Int32) (name : String)
  | enumValue (name : String) (n : Int64)
  | nextEnumValue (name : String) (yEnumVal : Int32)
  | function (decl : FunctionSyntax)
  | functionName (earlier : List String) (name : String)

namespace Item

/-- The message of an item that is refused. -/
def rejection (flags : Flags) : Item → Option String
  | .identifier name =>
    if name.toList.contains '.' then some ("Identifier " ++ name ++ " can't have a dot.") else none
  | .fieldKey autoAssigned =>
    if autoAssigned ∧ flags.strict ≥ 192 then
      some "Implicit field keys are deprecated and not allowed with -strict"
    else none
  | .member earlier key name =>
    if earlier.any fun m => m.1 == key || m.2 == name then
      some ("\"" ++ toString key.toInt ++ ": " ++ name ++
        "\" - field identifier/name has already been used")
    else none
  | .enumValue name n =>
    if n.toInt < -2 ^ 31 ∨ 2 ^ 31 ≤ n.toInt then
      some ("64-bit value supplied for enum " ++ name ++ " will be truncated.")
    else none
  | .nextEnumValue name yEnumVal =>
    if yEnumVal = 2147483647 then some ("enum value overflow at enum " ++ name) else none
  | .function decl =>
    if decl.oneway ∧ decl.exceptions ≠ [] then some "Oneway methods can't throw exceptions."
    else none
  | .functionName earlier name =>
    if earlier.contains name then some ("Function " ++ name ++ " is already defined") else none

/-- A function that is `oneway` and returns a named type without a `throws` clause. -/
def dereferences : Item → Bool
  | .function decl => decl.oneway && decl.named && decl.exceptions.isEmpty
  | _ => false

def check (flags : Flags) (item : Item) : Scan Unit :=
  match item.rejection flags with
  | some msg => .error (.failure (.failure msg))
  | none => if item.dereferences then .error .nullPointer else .ok ()

end Item

section Items
variable (flags : Flags)

mutual
def fieldItems (yFieldVal : Int32) : FieldSyntax → List Item
  | ⟨identifier, _, _, name, _, xsdAttrs, _⟩ =>
    xsdItems xsdAttrs ++
      [.fieldKey (fieldIdentifier flags yFieldVal identifier).autoAssigned, .identifier name]

def xsdItems : Option (List FieldSyntax) → List Item
  | none => []
  | some fields => fieldListItems [] (-1) fields

def fieldListItems (earlier : List (Int32 × String)) (yFieldVal : Int32) :
    List FieldSyntax → List Item
  | [] => []
  | f :: fs =>
    let key := (fieldIdentifier flags yFieldVal f.identifier).value
    fieldItems yFieldVal f ++ (.member earlier key f.name ::
      fieldListItems (earlier ++ [(key, f.name)]) (fieldAfter yFieldVal f) fs)

def fieldAfter (yFieldVal : Int32) : FieldSyntax → Int32
  | ⟨identifier, _, _, _, _, xsdAttrs, _⟩ =>
    xsdAfter (fieldIdentifier flags yFieldVal identifier).yFieldVal xsdAttrs

def xsdAfter (yFieldVal : Int32) : Option (List FieldSyntax) → Int32
  | none => yFieldVal
  | some fields => fieldListAfter (-1) fields

def fieldListAfter (yFieldVal : Int32) : List FieldSyntax → Int32
  | [] => yFieldVal
  | f :: fs => fieldListAfter (fieldAfter yFieldVal f) fs
end

def functionItems (decl : FunctionSyntax) : List Item :=
  fieldListItems flags [] (-1) decl.arglist ++ (fieldListItems flags [] (-1) decl.exceptions ++
    [.identifier decl.name, .function decl])

def functionListItems (earlier : List String) : List FunctionSyntax → List Item
  | [] => []
  | decl :: decls =>
    functionItems flags decl ++
      (.functionName earlier decl.name :: functionListItems (earlier ++ [decl.name]) decls)

def enumItems (yEnumVal : Int32) : List EnumSyntax → List Item
  | [] => []
  | ⟨name, some n, _⟩ :: vs => .enumValue name n :: enumItems n.toInt32 vs
  | ⟨name, none, _⟩ :: vs =>
    .identifier name :: .nextEnumValue name yEnumVal :: enumItems (yEnumVal + 1) vs

/-- The items of a definition in the order in which the actions come to them. -/
def definitionItems : DefinitionSyntax → List Item
  | .const _ _ _ => []
  | .typedef _ name _ | .senum name _ _ => [.identifier name]
  | .enum name values _ => enumItems (-1) values ++ [.identifier name]
  | .struct _ name fields _ | .xception name fields _ =>
    fieldListItems flags [] (-1) fields ++ [.identifier name]
  | .service name _ functions _ _ => functionListItems flags [] functions ++ [.identifier name]

end Items

theorem FieldSyntax.induct {P : FieldSyntax → Prop} {Q : List FieldSyntax → Prop}
    (mk : ∀ f : FieldSyntax, (∀ fields, f.xsdAttrs = some fields → Q fields) → P f) (nil : Q [])
    (cons : ∀ f fs, P f → Q fs → Q (f :: fs)) : ∀ fs, Q fs := by
  intro fs
  refine @FieldSyntax.rec_2 P (fun o => ∀ fields, o = some fields → Q fields) Q ?_ ?_ ?_ nil cons fs
  · exact fun _ _ _ _ _ _ _ h => mk _ h
  · simp
  · rintro fields h _ ⟨⟩
    exact h

section Quiet

theorem setAnnotations_ok {α : Type} (a : α) (annotations : Annotations) :
    setAnnotations (some a) annotations = .ok () := by
  unfold setAnnotations
  split
  · rename_i h
    obtain ⟨as, has⟩ := Option.isSome_iff_exists.mp h
    rw [has]
    rfl
  · rfl

theorem setCppName_ok (type : TType) (cppType : Option String) :
    setCppName (some type) cppType = .ok () := by
  unfold setCppName
  cases cppType <;> rfl

theorem fieldType_ok (type : TypeSyntax) : ∃ t, fieldType type = .ok t ∧
    (t = none ↔ ∃ name, type = .identifier name) := by
  induction type with
  | identifier name => exact ⟨none, rfl, iff_of_true rfl ⟨name, rfl⟩⟩
  | baseType base annotations =>
    obtain ⟨t, ht⟩ : ∃ t, simpleBaseType base = some t := by cases base <;> exact ⟨_, rfl⟩
    refine ⟨some t, ?_, by simp⟩
    rw [fieldType, ht]
    split
    · change (setAnnotations (some t) annotations >>= _) = _
      rw [setAnnotations_ok]
      rfl
    · rfl
  | list elem cppType annotations ih =>
    obtain ⟨t, ht, -⟩ := ih
    refine ⟨some (.list t), ?_, by simp⟩
    rw [fieldType, ht]
    change (setCppName (some (.list t)) cppType >>= _) = _
    rw [setCppName_ok]
    change (setAnnotations (some (TType.list t)) annotations >>= _) = _
    rw [setAnnotations_ok]
    rfl
  | set cppType elem annotations ih =>
    obtain ⟨t, ht, -⟩ := ih
    refine ⟨some (.set t), ?_, by simp⟩
    rw [fieldType, ht]
    change (setCppName (some (.set t)) cppType >>= _) = _
    rw [setCppName_ok]
    change (setAnnotations (some (TType.set t)) annotations >>= _) = _
    rw [setAnnotations_ok]
    rfl
  | map cppType key val annotations ihk ihv =>
    obtain ⟨k, hk, -⟩ := ihk
    obtain ⟨v, hv, -⟩ := ihv
    refine ⟨some (.map k v), ?_, by simp⟩
    rw [fieldType, hk]
    change (fieldType val >>= _) = _
    rw [hv]
    change (setCppName (some (.map k v)) cppType >>= _) = _
    rw [setCppName_ok]
    change (setAnnotations (some (TType.map k v)) annotations >>= _) = _
    rw [setAnnotations_ok]
    rfl

mutual
theorem constValue_ok : ∀ c : ConstSyntax, ∃ v, constValue c = .ok (some v)
  | .tok_int_constant _ | .tok_dub_constant _ | .tok_literal _ | .tok_identifier _ => by
    rw [constValue]
    exact ⟨_, rfl⟩
  | .list elems => by
    rw [constValue]
    exact constListContents_ok elems _
  | .map entries => by
    rw [constValue]
    exact constMapContents_ok entries _

theorem constListContents_ok : ∀ (elems : List ConstSyntax) (value : ConstValue),
    ∃ v, constListContents (some value) elems = .ok (some v)
  | [], value => ⟨value, by rw [constListContents]; rfl⟩
  | elem :: elems, value => by
    obtain ⟨e, he⟩ := constValue_ok elem
    rw [constListContents, he]
    exact constListContents_ok elems _

theorem constMapContents_ok : ∀ (entries : List (ConstSyntax × ConstSyntax)) (value : ConstValue),
    ∃ v, constMapContents (some value) entries = .ok (some v)
  | [], value => ⟨value, by rw [constMapContents]; rfl⟩
  | (key, val) :: entries, value => by
    obtain ⟨k, hk⟩ := constValue_ok key
    obtain ⟨v, hv⟩ := constValue_ok val
    rw [constMapContents, hk]
    change ∃ r, (constValue val >>= _) = _
    rw [hv]
    exact constMapContents_ok entries _
end

theorem fieldValue_ok (value : Option ConstSyntax) : fieldValue value = .ok none := by
  cases value with
  | none => rfl
  | some c =>
    obtain ⟨v, hv⟩ := constValue_ok c
    rw [fieldValue, hv]
    rfl

end Quiet

/-- A struct that is being read: no union yet, and no default values. -/
structure Plain (s : TStructOf (Option TType)) : Prop where
  isUnion : s.isUnion = false
  name : s.name = ""
  value : ∀ f ∈ s.members, f.value = none

def keysOf (s : TStructOf (Option TType)) : List (Int32 × String) :=
  s.members.map fun f => (f.key, f.name)

section Structs
variable {s : TStructOf (Option TType)}

theorem getFieldByName_isSome_iff (name : String) :
    (s.getFieldByName name).isSome = true ↔ ∃ f ∈ s.members, f.name = name := by
  unfold TStructOf.getFieldByName
  rw [List.find?_isSome]
  constructor
  · rintro ⟨f, hf, hname⟩
    exact ⟨f, (sortedMembers_perm s).mem_iff.mp hf, beq_iff_eq.mp hname⟩
  · rintro ⟨f, hf, hname⟩
    exact ⟨f, (sortedMembers_perm s).mem_iff.mpr hf, beq_iff_eq.mpr hname⟩

theorem append_plain (h : Plain s) {f : TFieldOf (Option TType)} :
    s.append f = .ok (if (keysOf s).any fun m => m.1 == f.key || m.2 == f.name then none
      else some { s with members := s.members ++ [f] }) := by
  have hany : ((keysOf s).any fun m => m.1 == f.key || m.2 == f.name) = true ↔
      (s.members.any fun g => g.key == f.key) = true ∨ (s.getFieldByName f.name).isSome = true := by
    rw [getFieldByName_isSome_iff, List.any_eq_true, List.any_eq_true]
    simp only [keysOf, List.mem_map, Bool.or_eq_true, beq_iff_eq]
    constructor
    · rintro ⟨_, ⟨g, hg, rfl⟩, hkey | hname⟩
      · exact .inl ⟨g, hg, hkey⟩
      · exact .inr ⟨g, hg, hname⟩
    · rintro (⟨g, hg, hkey⟩ | ⟨g, hg, hname⟩)
      · exact ⟨_, ⟨g, hg, rfl⟩, .inl hkey⟩
      · exact ⟨_, ⟨g, hg, rfl⟩, .inr hname⟩
  unfold TStructOf.append
  split
  · rename_i hkey
    rw [if_pos (hany.mpr (.inl hkey))]
    rfl
  rename_i hkey
  split
  · rename_i hname
    rw [if_pos (hany.mpr (.inr hname))]
    rfl
  rename_i hname
  rw [if_neg fun h => (hany.mp h).elim hkey hname]
  unfold TStructOf.validateUnionMember
  rw [if_neg (by simp [h.isUnion])]
  rfl

theorem validateUnionMember_ok {f : TFieldOf (Option TType)} (hf : f.value = none) :
    ∃ s', s.validateUnionMember f = .ok s' := by
  unfold TStructOf.validateUnionMember
  split
  · dsimp only
    rw [hf]
    exact ⟨_, rfl⟩
  · exact ⟨s, rfl⟩

theorem validateUnionMembers_ok (h : ∀ f ∈ s.members, f.value = none) :
    ∃ s', s.validateUnionMembers = .ok s' := by
  have hfold : ∀ (fs : List (TFieldOf (Option TType))) (s : TStructOf (Option TType)),
      (∀ f ∈ fs, f.value = none) → ∃ s', fs.foldlM TStructOf.validateUnionMember s = .ok s' := by
    intro fs
    induction fs with
    | nil => exact fun s _ => ⟨s, rfl⟩
    | cons f fs ih =>
      intro s hfs
      obtain ⟨s', hs'⟩ := @validateUnionMember_ok s f (hfs f (by simp))
      rw [List.foldlM_cons, hs']
      exact ih s' fun g hg => hfs g (by simp [hg])
  unfold TStructOf.validateUnionMembers
  split
  · obtain ⟨s', hs'⟩ :=
      hfold s.sortedMembers s fun f hf => h f ((sortedMembers_perm s).mem_iff.mp hf)
    rw [hs']
    exact ⟨_, rfl⟩
  · exact ⟨s, rfl⟩

theorem setUnion_plain (h : Plain s) (isUnion : Bool) :
    s.setUnion isUnion = .ok { s with isUnion := isUnion } := by
  unfold TStructOf.setUnion TStructOf.validateUnionMembers
  rw [if_neg (by simp [h.name])]
  rfl

end Structs

section Stops
variable {flags : Flags}

theorem check_refused {item : Item} {msg : String} (h : item.rejection flags = some msg) :
    item.check flags = .error (.failure (.failure msg)) := by
  unfold Item.check
  rw [h]

theorem check_ok {item : Item} (h : item.rejection flags = none)
    (hquiet : item.dereferences = false) : item.check flags = .ok () := by
  unfold Item.check
  rw [h, hquiet]
  rfl

theorem check_dereferences {item : Item} (h : item.rejection flags = none)
    (hdereferences : item.dereferences = true) : item.check flags = .error .nullPointer := by
  unfold Item.check
  rw [h, hdereferences]
  rfl

theorem stops_item {α : Type} {p : α → Prop} {item : Item} {more : List Item} {refused : Prop}
    [Decidable refused] {msg : String} {x next : Scan α}
    (hitem : item.rejection flags = if refused then some msg else none)
    (hquiet : item.dereferences = false) (hnext : StopsLike (Item.check flags) more next p)
    (hstop : refused → x = .error (.failure (.failure msg))) (hgo : ¬ refused → x = next) :
    StopsLike (Item.check flags) (item :: more) x p := by
  by_cases hrefused : refused
  · rw [if_pos hrefused] at hitem
    rw [hstop hrefused]
    obtain ⟨a, ha, -⟩ := hnext
    exact StopsLike.stop ha (check_refused hitem)
  · rw [if_neg hrefused] at hitem
    rw [hgo hrefused]
    exact StopsLike.go (check_ok hitem hquiet) hnext

theorem stops_identifier (name : String) :
    StopsLike (Item.check flags) [.identifier name] (ofCompile (validateSimpleIdentifier name))
      fun _ => True := by
  refine @stops_item flags Unit _ (.identifier name) _ _ _ _ _ _ rfl rfl
    (StopsLike.pure (a := ()) trivial) ?_ ?_
  · intro h
    rw [validateSimpleIdentifier, if_pos h]
    rfl
  · intro h
    rw [validateSimpleIdentifier, if_neg h]
    rfl

theorem stops_append {s : TStructOf (Option TType)} (h : Plain s) (f : TFieldOf (Option TType)) :
    StopsLike (Item.check flags) [.member (keysOf s) f.key f.name] (appendField s f)
      fun s' => s' = { s with members := s.members ++ [f] } := by
  refine stops_item rfl rfl (StopsLike.pure rfl) ?_ ?_
  · intro hused
    rw [appendField, append_plain h, if_pos hused]
    rfl
  · intro hfree
    rw [appendField, append_plain h, if_neg hfree]
    rfl

theorem Plain.append {s : TStructOf (Option TType)} (h : Plain s) {f : TFieldOf (Option TType)}
    (hf : f.value = none) : Plain { s with members := s.members ++ [f] } where
  isUnion := h.isUnion
  name := h.name
  value := by
    intro g hg
    rcases List.mem_append.mp hg with hg | hg
    · exact h.value g hg
    · rw [List.mem_singleton.mp hg]
      exact hf

structure Read (s : TStructOf (Option TType)) (fs : List FieldSyntax) (yFieldVal : Int32)
    (r : TStructOf (Option TType) × Int32) : Prop where
  plain : Plain r.1
  yFieldVal : r.2 = yFieldVal
  isEmpty : r.1.members.isEmpty = (s.members.isEmpty && fs.isEmpty)

theorem plain_empty : Plain { program := ⟨"", []⟩ } := ⟨rfl, rfl, by simp⟩

theorem stops_fieldListFrom (fs : List FieldSyntax) : ∀ (arglist : Bool)
    (s : TStructOf (Option TType)) (y : Int32), Plain s →
      StopsLike (Item.check flags) (fieldListItems flags (keysOf s) y fs)
        (fieldListFrom flags arglist s y fs) (Read s fs (fieldListAfter flags y fs)) := by
  revert fs
  refine @FieldSyntax.induct (fun f => ∀ (arglist : Bool) (y : Int32),
    StopsLike (Item.check flags) (fieldItems flags y f) (field flags arglist y f) fun r =>
      r.1.key = (fieldIdentifier flags y f.identifier).value ∧ r.1.name = f.name ∧
        r.1.value = none ∧ r.2 = fieldAfter flags y f) _ ?_ ?_ ?_
  · intro f hxsd arglist y
    obtain ⟨identifier, requiredness, type, name, value, xsdAttrs, annotations⟩ := f
    obtain ⟨t, ht, -⟩ := fieldType_ok type
    have hattrs : StopsLike (Item.check flags) (xsdItems flags xsdAttrs)
        (xsdAttributes flags arglist (fieldIdentifier flags y identifier).yFieldVal xsdAttrs)
        fun y' => y' = xsdAfter flags (fieldIdentifier flags y identifier).yFieldVal xsdAttrs := by
      cases xsdAttrs with
      | none =>
        rw [xsdItems, xsdAttributes, xsdAfter]
        exact StopsLike.pure rfl
      | some fields =>
        rw [xsdItems, xsdAttributes, xsdAfter]
        exact (hxsd fields rfl arglist _ (-1) plain_empty).then_ok
          fun r hr => ⟨_, hr.yFieldVal, rfl⟩
    rw [fieldItems, field]
    refine StopsLike.of_ok ht (StopsLike.of_ok (fieldValue_ok value) (hattrs.bind fun y' hy' => ?_))
    refine @stops_item flags _ _ (.fieldKey _) _ _ _ _ _ _ rfl rfl ?_ (fun h => if_pos h)
      fun h => if_neg h
    refine (stops_identifier name).then_ok fun _ _ => ?_
    let f : TFieldOf (Option TType) :=
      { type := t, name, key := (fieldIdentifier flags y identifier).value,
        req := fieldRequiredness arglist requiredness }
    refine ⟨(f, y'), ⟨rfl, rfl, rfl, by rw [fieldAfter]; exact hy'⟩, ?_⟩
    change (setAnnotations (some _) annotations >>= _) = _
    rw [setAnnotations_ok]
    rfl
  · intro arglist s y hs
    rw [fieldListItems, fieldListFrom]
    exact StopsLike.pure ⟨hs, by rw [fieldListAfter], by simp⟩
  · intro f fs hf hfs arglist s y hs
    rw [fieldListItems, fieldListFrom]
    refine (hf arglist y).bind fun r hr => ?_
    obtain ⟨f', y'⟩ := r
    obtain ⟨hkey, hname, hvalue, hafter⟩ := hr
    dsimp only at hkey hname hvalue hafter
    subst hafter
    rw [← hkey, ← hname]
    rw [fieldListAfter]
    change StopsLike _ ([Item.member (keysOf s) f'.key f'.name] ++ _) _ _
    refine (stops_append hs f').bind fun s' hs' => ?_
    subst hs'
    have hkeys :
        keysOf s ++ [(f'.key, f'.name)] = keysOf { s with members := s.members ++ [f'] } := by
      simp [keysOf]
    rw [hkeys]
    refine (hfs arglist _ _ (hs.append hvalue)).imp fun r hr => ⟨hr.plain, hr.yFieldVal, ?_⟩
    rw [hr.isEmpty]
    simp

theorem stops_fieldList (arglist : Bool) (fs : List FieldSyntax) :
    StopsLike (Item.check flags) (fieldListItems flags [] (-1) fs) (fieldList flags arglist fs)
      fun s => Plain s ∧ s.members.isEmpty = fs.isEmpty :=
  (stops_fieldListFrom fs arglist _ (-1) plain_empty).then_ok fun r hr =>
    ⟨r.1, ⟨hr.plain, by rw [hr.isEmpty]; simp⟩, rfl⟩

theorem stops_throws (fs : Option (List FieldSyntax)) :
    StopsLike (Item.check flags) (fieldListItems flags [] (-1) (fs.getD [])) (throws flags fs)
      fun s => Plain s ∧ s.members.isEmpty = (fs.getD []).isEmpty := by
  cases fs with
  | none =>
    rw [Option.getD_none, fieldListItems]
    exact StopsLike.pure ⟨plain_empty, rfl⟩
  | some fs => exact stops_fieldList true fs

theorem stops_struct (isUnion : Bool) (name : String) (fs : List FieldSyntax)
    (annotations : Annotations) :
    StopsLike (Item.check flags) (fieldListItems flags [] (-1) fs ++ [.identifier name])
      (struct flags isUnion name fs annotations) fun _ => True := by
  refine (stops_fieldList false fs).bind fun s hs => (stops_identifier name).then_ok fun _ _ => ?_
  obtain ⟨s', hs'⟩ := @validateUnionMembers_ok { s with isUnion, name } hs.1.value
  refine ⟨(), trivial, ?_⟩
  rw [setUnion_plain hs.1]
  change (ofCompile (TStructOf.validateUnionMembers _) >>= _) = _
  rw [hs']
  exact setAnnotations_ok s' annotations

theorem stops_xception (name : String) (fs : List FieldSyntax) (annotations : Annotations) :
    StopsLike (Item.check flags) (fieldListItems flags [] (-1) fs ++ [.identifier name])
      (xception flags name fs annotations) fun _ => True := by
  refine (stops_fieldList false fs).bind fun s hs => (stops_identifier name).then_ok fun _ _ => ?_
  obtain ⟨s', hs'⟩ := @validateUnionMembers_ok { s with name } hs.1.value
  refine ⟨(), trivial, ?_⟩
  change (ofCompile (TStructOf.validateUnionMembers _) >>= _) = _
  rw [hs']
  exact setAnnotations_ok (s'.setXception true) annotations

theorem functionType_ok (decl : FunctionSyntax) : ∃ t, functionType decl.returntype = .ok t ∧
    (t = none ↔ decl.named = true) := by
  unfold FunctionSyntax.named
  cases decl.returntype with
  | none => exact ⟨_, rfl, by simp⟩
  | some type =>
    obtain ⟨t, ht, hnull⟩ := fieldType_ok type
    refine ⟨t, ht, hnull.trans ?_⟩
    cases type <;> simp

theorem stops_newFunction (decl : FunctionSyntax) {t : Option TType}
    {arglist xceptions : TStructOf (Option TType)} (ht : t = none ↔ decl.named = true)
    (hempty : xceptions.members.isEmpty = decl.exceptions.isEmpty) :
    StopsLike (Item.check flags) [.function decl]
      (newFunction t decl.name arglist xceptions decl.oneway)
      fun func => func.name = decl.name := by
  have hreturn :
      (⟨t, decl.name, arglist, xceptions, decl.oneway⟩ : TFunction).name = decl.name := rfl
  unfold newFunction
  rw [hempty]
  by_cases hrefused : decl.oneway = true ∧ decl.exceptions ≠ []
  · rw [if_pos (by simpa using hrefused)]
    exact StopsLike.stop hreturn (check_refused (if_pos hrefused))
  rw [if_neg (by simpa using hrefused)]
  have hrejection : (Item.function decl).rejection flags = none := if_neg hrefused
  by_cases honeway : decl.oneway = true
  · rw [if_pos honeway]
    have hexceptions : decl.exceptions = [] := by
      by_contra hne
      exact hrefused ⟨honeway, hne⟩
    cases t with
    | none =>
      have hdereferences : (Item.function decl).dereferences = true := by
        simp [Item.dereferences, honeway, ht.mp rfl, hexceptions]
      exact StopsLike.stop hreturn (check_dereferences hrejection hdereferences)
    | some type =>
      have hnamed : decl.named = false := by
        rw [Bool.eq_false_iff]
        exact fun h => absurd (ht.mpr h) (by simp)
      refine StopsLike.go (check_ok hrejection ?_) (StopsLike.pure rfl)
      simp [Item.dereferences, hnamed]
  · rw [if_neg honeway]
    refine StopsLike.go (check_ok hrejection ?_) (StopsLike.pure rfl)
    simp [Item.dereferences, honeway]

theorem stops_function (decl : FunctionSyntax) :
    StopsLike (Item.check flags) (functionItems flags decl) (function flags decl)
      fun func => func.name = decl.name := by
  obtain ⟨t, ht, hnull⟩ := functionType_ok decl
  refine StopsLike.of_ok ht ((stops_fieldList true decl.arglist).bind fun arglist harglist => ?_)
  refine (stops_throws decl.throws).bind fun xceptions hxceptions => ?_
  change StopsLike _ ([Item.identifier decl.name] ++ [Item.function decl]) _ _
  refine (stops_identifier decl.name).bind fun _ _ => ?_
  obtain ⟨arglist', hname⟩ :=
    @validateUnionMembers_ok { arglist with name := decl.name ++ "_args" } harglist.1.value
  have hset : ofCompile (arglist.setName (decl.name ++ "_args")) = .ok arglist' := by
    unfold TStructOf.setName
    rw [hname]
    rfl
  refine StopsLike.of_ok hset
    ((stops_newFunction decl hnull hxceptions.2).then_ok fun func hfunc => ?_)
  rw [setAnnotations_ok]
  exact ⟨func, hfunc, rfl⟩

theorem stops_functionList (decls : List FunctionSyntax) (functions : List TFunction) :
    StopsLike (Item.check flags) (functionListItems flags (functions.map TFunction.name) decls)
      (functionList flags functions decls) fun _ => True := by
  induction decls generalizing functions with
  | nil => exact StopsLike.pure trivial
  | cons decl decls ih =>
    rw [functionListItems, functionList]
    refine (stops_function decl).bind fun func hfunc => ?_
    have hnext := ih (functions ++ [func])
    rw [List.map_append, List.map_singleton, hfunc] at hnext
    have hany : (functions.any fun f => f.name == func.name) =
        (functions.map TFunction.name).contains decl.name := by
      rw [hfunc, List.contains_eq_any_beq, List.any_map]
      congr 1
      funext f
      exact BEq.comm
    rw [hany, hfunc]
    exact @stops_item flags _ _ (.functionName _ _) _ _ _ _ _ _ rfl rfl hnext (fun h => if_pos h)
      fun h => if_neg h

theorem stops_service (name : String) (functions : List FunctionSyntax)
    (annotations resources : Annotations) :
    StopsLike (Item.check flags) (functionListItems flags [] functions ++ [.identifier name])
      (service flags name functions annotations resources) fun _ => True := by
  refine (stops_functionList functions []).bind fun funcs _ =>
    (stops_identifier name).then_ok fun _ _ => ?_
  rw [setAnnotations_ok, setAnnotations_ok]
  exact ⟨(), trivial, rfl⟩

theorem ofCompile_bind {α β : Type} (x : Compile α) (f : α → Compile β) :
    ofCompile (x >>= f) = ofCompile x >>= fun a => ofCompile (f a) := by
  cases x <;> rfl

theorem stops_enumDefList (values : List EnumSyntax) (y : Int32) :
    StopsLike (Item.check flags) (enumItems y values)
      (ofCompile (enumDefList y (values.map fun v => (v.name, v.value)))) fun _ => True := by
  induction values generalizing y with
  | nil => exact StopsLike.pure trivial
  | cons v values ih =>
    obtain ⟨name, value, annotations⟩ := v
    rw [List.map_cons]
    cases value with
    | some n =>
      rw [enumItems, enumDefList]
      refine @stops_item flags _ _ (.enumValue name n) _ _ _ _ _ _ rfl rfl
        ((ih n.toInt32).then_ok fun values _ => ⟨⟨name, n.toInt32⟩ :: values, trivial, rfl⟩) ?_ ?_
      · intro h
        rw [if_pos h]
        rfl
      · intro h
        rw [if_neg h]
        exact ofCompile_bind _ _
    | none =>
      rw [enumItems, enumDefList, ofCompile_bind]
      change StopsLike _ ([Item.identifier name] ++ _) _ _
      refine (stops_identifier name).bind fun _ _ => ?_
      refine @stops_item flags _ _ (.nextEnumValue name y) _ _ _ _ _ _ rfl rfl
        ((ih (y + 1)).then_ok fun values _ => ⟨⟨name, y + 1⟩ :: values, trivial, rfl⟩) ?_ ?_
      · intro h
        rw [if_pos h]
        rfl
      · intro h
        rw [if_neg h]
        exact ofCompile_bind _ _

theorem stops_enum (name : String) (values : List EnumSyntax) (annotations : Annotations) :
    StopsLike (Item.check flags) (enumItems (-1) values ++ [.identifier name])
      (enum name values annotations) fun _ => True := by
  have hannotations : (values.forM fun v => setAnnotations (some v.name) v.annotations) = .ok () :=
    forM_ok fun v _ => setAnnotations_ok v.name v.annotations
  refine StopsLike.of_ok hannotations ?_
  refine StopsLike.then_ok (p := fun _ => True) ?_ fun e _ => ⟨(), trivial, setAnnotations_ok e _⟩
  unfold ThriftParser.enum
  rw [ofCompile_bind]
  refine (stops_enumDefList values (-1)).bind fun constants _ => ?_
  rw [ofCompile_bind]
  exact (stops_identifier name).then_ok fun _ _ => ⟨_, trivial, rfl⟩

theorem stops_typedef (type : Option TType) (name : String) (annotations : Annotations) :
    StopsLike (Item.check flags) [.identifier name] (typedef type name annotations)
      fun _ => True := by
  refine (stops_identifier name).then_ok fun _ _ => ?_
  exact ⟨(), trivial, setAnnotations_ok _ _⟩

theorem stops_definition (d : DefinitionSyntax) :
    StopsLike (Item.check flags) (definitionItems flags d) (definition flags d) fun _ => True := by
  cases d with
  | const type name value =>
    obtain ⟨t, ht, -⟩ := fieldType_ok type
    obtain ⟨v, hv⟩ := constValue_ok value
    exact StopsLike.of_ok ht (StopsLike.of_ok hv (StopsLike.pure trivial))
  | typedef type name annotations =>
    obtain ⟨t, ht, -⟩ := fieldType_ok type
    exact StopsLike.of_ok ht (stops_typedef t name annotations)
  | enum name values annotations => exact stops_enum name values annotations
  | senum name values annotations => exact stops_typedef _ name annotations
  | struct isUnion name fields annotations => exact stops_struct isUnion name fields annotations
  | xception name fields annotations => exact stops_xception name fields annotations
  | service name parent functions annotations resources =>
    exact stops_service name functions annotations resources

theorem stops_scanFile (ds : List DefinitionSyntax) :
    StopsLike (Item.check flags) (ds.flatMap (definitionItems flags)) (scanFile flags ds)
      fun _ => True := by
  induction ds with
  | nil => exact StopsLike.pure trivial
  | cons d ds ih =>
    rw [List.flatMap_cons]
    exact (stops_definition d).bind fun _ _ => ih

end Stops

theorem rejection_of_dereferences {flags : Flags} {item : Item} (h : item.dereferences = true) :
    item.rejection flags = none := by
  cases item with
  | function decl =>
    rw [Item.dereferences, Bool.and_eq_true, List.isEmpty_iff] at h
    exact if_neg fun hrefused => hrefused.2 h.2
  | _ => cases h

theorem check_eq_ok_iff {flags : Flags} {item : Item} :
    item.check flags = .ok () ↔ item.rejection flags = none ∧ item.dereferences = false := by
  constructor
  · intro h
    unfold Item.check at h
    split at h
    · cases h
    · rename_i hrejection
      split at h
      · cases h
      · rename_i hquiet
        exact ⟨hrejection, Bool.eq_false_iff.mpr hquiet⟩
  · exact fun h => check_ok h.1 h.2

theorem check_eq_nullPointer_iff {flags : Flags} {item : Item} :
    item.check flags = .error .nullPointer ↔ item.dereferences = true := by
  constructor
  · intro h
    unfold Item.check at h
    split at h
    · cases h
    · split at h
      · assumption
      · cases h
  · exact fun h => check_dereferences (rejection_of_dereferences h) h

theorem exists_first_use {flags : Flags} {before after : List Item} {item : Item}
    (hbefore : ∀ i ∈ before, i.rejection flags = none) (hitem : item.dereferences = true) :
    (before ++ item :: after).forM (Item.check flags) = .error .nullPointer := by
  rw [forM_eq_error_iff]
  cases hfind : before.find? Item.dereferences with
  | none =>
    rw [List.find?_eq_none] at hfind
    refine ⟨before, item, after, rfl, fun i hi => ?_, check_eq_nullPointer_iff.mpr hitem⟩
    exact check_eq_ok_iff.mpr ⟨hbefore i hi, Bool.eq_false_iff.mpr (hfind i hi)⟩
  | some first =>
    obtain ⟨hfirst, as, bs, rfl, has⟩ := List.find?_eq_some_iff_append.mp hfind
    refine ⟨as, first, bs ++ item :: after, by simp, fun i hi => ?_,
      check_eq_nullPointer_iff.mpr hfirst⟩
    exact check_eq_ok_iff.mpr ⟨hbefore i (by simp [hi]), by simpa using has i hi⟩

/-- The pass uses no `NULL` exactly when every `oneway` function that returns a named type, without
    a `throws` clause, comes after something that the pass refuses. -/
theorem scanFile_null_safe_iff (flags : Flags) (ds : List DefinitionSyntax) :
    scanFile flags ds ≠ .error .nullPointer ↔
      ∀ before item after, ds.flatMap (definitionItems flags) = before ++ item :: after →
        item.dereferences = true → ∃ i ∈ before, (i.rejection flags).isSome = true := by
  rw [Ne, (stops_scanFile ds).error_iff]
  constructor
  · intro hsafe before item after hitems hitem
    by_contra hnone
    refine hsafe (hitems ▸ exists_first_use (fun i hi => ?_) hitem)
    rw [← Option.not_isSome_iff_eq_none]
    exact fun h => hnone ⟨i, hi, h⟩
  · intro hall herror
    obtain ⟨before, item, after, hitems, hbefore, hitem⟩ := forM_eq_error_iff.mp herror
    obtain ⟨i, hi, hrejected⟩ :=
      hall before item after hitems (check_eq_nullPointer_iff.mp hitem)
    rw [(check_eq_ok_iff.mp (hbefore i hi)).1] at hrejected
    cases hrejected

/-- `service S` with the function `oneway Foo f()`. -/
def onewayFoo : List DefinitionSyntax :=
  [.service "S" none [⟨true, some (.identifier "Foo"), "f", [], none, none, none⟩] none none]

theorem onewayFoo_crashes : scanFile {} onewayFoo = .error .nullPointer := by
  decide

end Sparsam.IncludesPass
