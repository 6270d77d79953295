import Sparsam.ClassReferences

set_option autoImplicit false

/-!
# Which member of a constant is read

A `t_const_value` says by its type which of its members was set. The compiler
walks a constant three times, each time along another type: resolution and
validation along the declared one, where they stop at a typedef, rendering along
the expanded one. `Fits` and `FitsLiteral` say which values these walks read
only through the member that was set.
-/
namespace Sparsam.ConstantAccess
open ThriftTypes ThriftScope ThriftParser SchemaLiteral ClassReferences

inductive Accessor where
  | get_integer
  | get_string
  | get_double
  | get_list
  | get_map
deriving DecidableEq, Repr

/-- An accessor called on a value of this type; `enumSet` tells whether `set_enum` was. -/
structure Call where
  accessor : Accessor
  valType : CV
  enumSet : Bool
deriving DecidableEq, Repr

/-- The member that the accessor reads is the one that was set. -/
def Call.Matches (c : Call) : Prop :=
  match c.accessor with
  | .get_integer => c.valType = .CV_INTEGER ∨ (c.valType = .CV_IDENTIFIER ∧ c.enumSet = true)
  | .get_string => c.valType = .CV_STRING
  | .get_double => c.valType = .CV_DOUBLE
  | .get_list => c.valType = .CV_LIST
  | .get_map => c.valType = .CV_MAP

instance (c : Call) : Decidable c.Matches := by
  unfold Call.Matches
  cases c.accessor <;> infer_instance

def call (accessor : Accessor) (cv : ConstValue) : Call := ⟨accessor, cv.valType, cv.tenum.isSome⟩

section Resolve
variable (scopes : String → Scope) (fuel : ℕ) (scope : Scope)

/-- The calls on the value of the constant that an identifier names. -/
def identifierCalls (constVal : ConstValue) : List Call :=
  match scope.getConstant constVal.identifierVal with
  | none => []
  | some constant =>
    match getTrueType scopes fuel constant.type with
    | .ok (.baseType base _) =>
      match base with
      | .TYPE_I16 | .TYPE_I32 | .TYPE_I64 | .TYPE_BOOL | .TYPE_BYTE =>
        [call .get_integer constant.value]
      | .TYPE_STRING => [call .get_string constant.value]
      | .TYPE_DOUBLE => [call .get_double constant.value]
      | .TYPE_VOID => []
    | .ok (.map _ _) => [call .get_map constant.value]
    | .ok (.list _) => [call .get_list constant.value]
    | _ => []

def singleCalls (ttype : ThriftType) (constVal : ConstValue) : List Call :=
  if constVal.valType = .CV_IDENTIFIER then
    match ttype with
    | .enum _ => []
    | _ => identifierCalls scopes fuel scope constVal
  else
    match ttype with
    | .enum _ => [call .get_integer constVal]
    | _ => []

mutual
/-- The calls of a run of `resolve_const_value` that ends. -/
def resolveCalls : ThriftType → ConstValue → List Call := fun ttype constVal =>
  match ttype, constVal with
  | .map key val, ⟨t, es, xs, s, n, d, i, e⟩ =>
    call .get_map ⟨t, es, xs, s, n, d, i, e⟩ :: resolveEntriesCalls key val es
  | .list elem, ⟨t, es, xs, s, n, d, i, e⟩ =>
    call .get_list ⟨t, es, xs, s, n, d, i, e⟩ :: resolveElemsCalls elem xs
  | .set elem, ⟨t, es, xs, s, n, d, i, e⟩ =>
    call .get_list ⟨t, es, xs, s, n, d, i, e⟩ :: resolveElemsCalls elem xs
  | .struct tstruct, ⟨t, es, xs, s, n, d, i, e⟩ =>
    if tstruct.isXception then singleCalls scopes fuel scope ttype constVal
    else call .get_map ⟨t, es, xs, s, n, d, i, e⟩ :: resolveFieldsCalls tstruct es
  | _, _ => singleCalls scopes fuel scope ttype constVal

def resolveEntriesCalls (key val : ThriftType) : List (ConstValue × ConstValue) → List Call
  | [] => []
  | (k, v) :: es => resolveCalls key k ++ resolveCalls val v ++ resolveEntriesCalls key val es

def resolveElemsCalls (elem : ThriftType) : List ConstValue → List Call
  | [] => []
  | x :: xs => resolveCalls elem x ++ resolveElemsCalls elem xs

def resolveFieldsCalls (tstruct : TStruct) : List (ConstValue × ConstValue) → List Call
  | [] => []
  | (k, v) :: es =>
    call .get_string k ::
      match tstruct.getFieldByName k.stringVal with
      | none => []
      | some field => resolveCalls field.type v ++ resolveFieldsCalls tstruct es
end

end Resolve

mutual
/-- The calls of a run of `validate_const_rec` that ends. -/
def validateCalls : ThriftType → ConstValue → List Call := fun type value =>
  match type, value with
  | .struct tstruct, ⟨t, es, xs, s, n, d, i, e⟩ =>
    call .get_map ⟨t, es, xs, s, n, d, i, e⟩ :: validateFieldsCalls tstruct es
  | .map kType vType, ⟨t, es, xs, s, n, d, i, e⟩ =>
    call .get_map ⟨t, es, xs, s, n, d, i, e⟩ :: validateEntriesCalls kType vType es
  | .list eType, ⟨t, es, xs, s, n, d, i, e⟩ =>
    call .get_list ⟨t, es, xs, s, n, d, i, e⟩ :: validateElemsCalls eType xs
  | .set eType, ⟨t, es, xs, s, n, d, i, e⟩ =>
    call .get_list ⟨t, es, xs, s, n, d, i, e⟩ :: validateElemsCalls eType xs
  | _, _ => []

def validateFieldsCalls (tstruct : TStruct) : List (ConstValue × ConstValue) → List Call
  | [] => []
  | (k, v) :: es =>
    call .get_string k ::
      match memberType tstruct k.stringVal with
      | none => []
      | some fieldType => validateCalls fieldType v ++ validateFieldsCalls tstruct es

def validateEntriesCalls (kType vType : ThriftType) : List (ConstValue × ConstValue) → List Call
  | [] => []
  | (k, v) :: es =>
    validateCalls kType k ++ validateCalls vType v ++ validateEntriesCalls kType vType es

def validateElemsCalls (eType : ThriftType) : List ConstValue → List Call
  | [] => []
  | x :: xs => validateCalls eType x ++ validateElemsCalls eType xs
end

/-- The calls of a run that may stop with a message, and whether it came to its end. -/
structure Walk where
  calls : List Call
  done : Bool

namespace Walk

def stop : Walk := ⟨[], false⟩

def of (calls : List Call) : Walk := ⟨calls, true⟩

def andThen (a b : Walk) : Walk := if a.done then ⟨a.calls ++ b.calls, b.done⟩ else a

def Clean (w : Walk) : Prop := ∀ c ∈ w.calls, c.Matches

theorem clean_stop : stop.Clean := fun _ hc => absurd hc List.not_mem_nil

theorem clean_of_iff (calls : List Call) : (of calls).Clean ↔ ∀ c ∈ calls, c.Matches := Iff.rfl

theorem Clean.andThen {a b : Walk} (ha : a.Clean) (hb : b.Clean) : (a.andThen b).Clean := by
  unfold Walk.andThen
  split
  · intro c hc
    rcases List.mem_append.mp hc with hc | hc
    · exact ha c hc
    · exact hb c hc
  · exact ha

theorem done_andThen {a b : Walk} (h : (a.andThen b).done = true) :
    a.done = true ∧ b.done = true := by
  unfold Walk.andThen at h
  split at h
  · rename_i ha
    exact ⟨ha, h⟩
  · rename_i ha
    exact absurd h ha

theorem clean_andThen_iff {a b : Walk} (h : (a.andThen b).done = true) :
    (a.andThen b).Clean ↔ a.Clean ∧ b.Clean := by
  refine ⟨fun hclean => ?_, fun hboth => hboth.1.andThen hboth.2⟩
  unfold Walk.andThen at hclean
  rw [if_pos (done_andThen h).1] at hclean
  exact ⟨fun c hc => hclean c (List.mem_append_left _ hc),
    fun c hc => hclean c (List.mem_append_right _ hc)⟩

end Walk

section Render
variable (scopes : String → Scope) (fuel : ℕ)

def integerCalls (value : ConstValue) : Walk :=
  ⟨[call .get_integer value], value.getInteger.isOk⟩

def baseCalls (base : TBase) (value : ConstValue) : Walk :=
  match base with
  | .TYPE_STRING => .of [call .get_string value]
  | .TYPE_BOOL | .TYPE_BYTE | .TYPE_I16 | .TYPE_I32 | .TYPE_I64 => integerCalls value
  | .TYPE_DOUBLE =>
    if value.valType = .CV_INTEGER then integerCalls value else .of [call .get_double value]
  | .TYPE_VOID => .stop

mutual
/-- The calls of `render_const_value`. -/
def renderCalls : ThriftType → ConstValue → Walk := fun type value =>
  match value with
  | ⟨t, es, xs, s, n, d, i, e⟩ =>
    match getTrueType scopes fuel type with
    | .error _ => .stop
    | .ok type =>
      match type with
      | .baseType base _ => baseCalls base ⟨t, es, xs, s, n, d, i, e⟩
      | .enum _ => integerCalls ⟨t, es, xs, s, n, d, i, e⟩
      | .struct tstruct =>
        (Walk.of [call .get_map ⟨t, es, xs, s, n, d, i, e⟩]).andThen (renderFieldsCalls tstruct es)
      | .map ktype vtype =>
        (Walk.of [call .get_map ⟨t, es, xs, s, n, d, i, e⟩]).andThen
          (renderEntriesCalls ktype vtype es)
      | .list etype | .set etype =>
        (Walk.of [call .get_list ⟨t, es, xs, s, n, d, i, e⟩]).andThen (renderElemsCalls etype xs)
      | .typedef _ _ _ | .forwardTypedef _ _ => .stop

def renderFieldsCalls (tstruct : TStruct) : List (ConstValue × ConstValue) → Walk
  | [] => .of []
  | (k, v) :: es =>
    (Walk.of [call .get_string k]).andThen <|
      match memberType tstruct k.stringVal with
      | none => .stop
      | some fieldType => (renderCalls fieldType v).andThen (renderFieldsCalls tstruct es)

def renderEntriesCalls (ktype vtype : ThriftType) : List (ConstValue × ConstValue) → Walk
  | [] => .of []
  | (k, v) :: es =>
    (renderCalls ktype k).andThen
      ((renderCalls vtype v).andThen (renderEntriesCalls ktype vtype es))

def renderElemsCalls (etype : ThriftType) : List ConstValue → Walk
  | [] => .of []
  | x :: xs => (renderCalls etype x).andThen (renderElemsCalls etype xs)
end

end Render

end Sparsam.ConstantAccess
