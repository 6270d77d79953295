import Sparsam.AuditReflexivity
import Sparsam.RubyNames
import Sparsam.RubyReader

set_option autoImplicit false

/-!
# The modules of enums

An enum becomes a module of integer constants with two hashes between names and
values and the set of the values. Ruby opens the module that its name stands for
or makes a new one, and evaluates the statements in order: a constant assigned
again keeps the last value, a repeated key the last entry.
-/
namespace Sparsam.EnumModules
open ThriftTypes ThriftScope ThriftParser RubyNames RubyReader

inductive RubyObject where
  | int (n : ℤ)
  | valueMap (es : List (ℤ × String))
  | invertedValueMap (es : List (String × ℤ))
  | validValues (xs : List RubyObject)
  | setClass
  | module (constants : List (String × RubyObject))
  | other

inductive Statement where
  | assign (name : String) (value : ℤ)
  /-- `VALUE_MAP = {value => "name", ..}` -/
  | valueMap (es : List (ℤ × String))
  /-- `INVERTED_VALUE_MAP = {"name" => value, ..}` -/
  | invertedValueMap (es : List (String × ℤ))
  /-- `VALID_VALUES = Set.new([name, ..]).freeze` -/
  | validValues (names : List String)

/-- `module name`, the statements and `end` -/
structure EnumModule where
  name : String
  body : List Statement

/-- `generate_enum`, the comments apart. -/
def generateEnum (tenum : TEnum) : EnumModule where
  name := capitalize tenum.name
  body := (tenum.constants.map fun c => .assign (capitalize c.name) c.value.toInt) ++
    [.valueMap (tenum.constants.map fun c => (c.value.toInt, capitalize c.name)),
      .invertedValueMap (tenum.constants.map fun c => (capitalize c.name, c.value.toInt)),
      .validValues (tenum.constants.map fun c => capitalize c.name)]

/-- The constants and the local variables of the module's body, the last one first. -/
structure Body where
  constants : List (String × RubyObject) := []
  locals : List (String × ℤ) := []

namespace Body
variable (outer : String → Option RubyObject)

def const (b : Body) (name : String) : Option RubyObject :=
  (b.constants.lookup name).or (outer name)

def read (b : Body) (name : String) : Option RubyObject :=
  match nameKind name.toList with
  | .constant => b.const outer name
  | .localVariable => (b.locals.lookup name).map .int
  | .other => none

def define (b : Body) (name : String) (x : RubyObject) : Body :=
  { b with constants := (name, x) :: b.constants }

/-- One statement; `none` is an exception or a syntax error. -/
def run (b : Body) : Statement → Option Body
  | .assign name n =>
    match nameKind name.toList with
    | .constant => some (b.define name (.int n))
    | .localVariable => some { b with locals := (name, n) :: b.locals }
    | .other => none
  | .valueMap es => some (b.define "VALUE_MAP" (.valueMap es))
  | .invertedValueMap es => some (b.define "INVERTED_VALUE_MAP" (.invertedValueMap es))
  | .validValues names =>
    match b.const outer "Set" with
    | some .setClass => do
      let xs ← names.mapM (b.read outer)
      some (b.define "VALID_VALUES" (.validValues xs))
    | _ => none

def constant (b : Body) (name : String) : Option RubyObject :=
  if isConstantName name.toList then b.constants.lookup name else none

end Body

/-- Where the module stands: the constants of the module around it alone, and all that are
    found there. -/
structure Place where
  own : String → Option RubyObject
  const : String → Option RubyObject

/-- What the module has before its body; a class of that name cannot be opened. -/
def openModule (place : Place) (name : String) : Option Body :=
  if isConstantName name.toList then
    match place.own name with
    | none => some {}
    | some (.module constants) => some { constants }
    | some _ => none
  else none

def inside (place : Place) (name x : String) : Option RubyObject :=
  if x = name then some (.module []) else place.const x

def evaluate (place : Place) (m : EnumModule) : Option Body :=
  (openModule place m.name).bind fun b => m.body.foldlM (Body.run (inside place m.name)) b

def entryOf {α β : Type} [DecidableEq α] (es : List (α × β)) (key : α) : Option β :=
  es.reverse.lookup key

/-- The names of the members, their values and the three collections agree. -/
structure Coherent (tenum : TEnum) (b : Body) : Prop where
  constants : ∀ c ∈ tenum.constants,
    b.constant (capitalize c.name) = some (.int c.value.toInt)
  maps : ∃ valueMap invertedValueMap validValues,
    b.constants.lookup "VALUE_MAP" = some (.valueMap valueMap) ∧
    b.constants.lookup "INVERTED_VALUE_MAP" = some (.invertedValueMap invertedValueMap) ∧
    b.constants.lookup "VALID_VALUES" = some (.validValues validValues) ∧
    (∀ c ∈ tenum.constants, entryOf invertedValueMap (capitalize c.name) = some c.value.toInt ∧
      entryOf valueMap c.value.toInt = some (capitalize c.name)) ∧
    (∀ n name, entryOf valueMap n = some name ↔ entryOf invertedValueMap name = some n) ∧
    ∀ x, x ∈ validValues ↔ ∃ c ∈ tenum.constants, x = .int c.value.toInt

def ownNames : List String := ["Set", "VALUE_MAP", "INVERTED_VALUE_MAP", "VALID_VALUES"]

def constantsOf : Option RubyObject → List (String × RubyObject)
  | some (.module constants) => constants
  | _ => []

/-- The name of the enum is free or that of a module; every member becomes a constant of its
    own, and two have one value exactly when they have one name. -/
structure OwnConstants (place : Place) (tenum : TEnum) : Prop where
  name : isConstantName (capitalize tenum.name).toList = true
  vacant : place.own (capitalize tenum.name) = none ∨
    ∃ constants, place.own (capitalize tenum.name) = some (.module constants)
  kind : ∀ c ∈ tenum.constants, isConstantName (capitalize c.name).toList = true
  free : ∀ c ∈ tenum.constants, capitalize c.name ∉ ownNames
  paired : ∀ c ∈ tenum.constants, ∀ c' ∈ tenum.constants,
    c.value = c'.value ↔ capitalize c.name = capitalize c'.name
  setClass : ((constantsOf (place.own (capitalize tenum.name))).lookup "Set").or
    (inside place (capitalize tenum.name) "Set") = some .setClass

section Lookup
variable {α β : Type} [DecidableEq α]

theorem lookup_of_agreeing {es : List (α × β)} {k : α} {v : β} (hmem : (k, v) ∈ es)
    (hall : ∀ v', (k, v') ∈ es → v' = v) : es.lookup k = some v := by
  induction es with
  | nil => cases hmem
  | cons e es ih =>
    rw [SortedMap.lookup_cons_if]
    split
    · rename_i hk
      rw [hall e.2 (by simp [hk])]
    · rename_i hk
      rcases List.mem_cons.mp hmem with rfl | hmem
      · exact absurd rfl hk
      · exact ih hmem fun w hw => hall w (by simp [hw])

theorem entryOf_of_agreeing {es : List (α × β)} {k : α} {v : β} (hmem : (k, v) ∈ es)
    (hall : ∀ v', (k, v') ∈ es → v' = v) : entryOf es k = some v :=
  lookup_of_agreeing (List.mem_reverse.mpr hmem) fun v' hv' => hall v' (List.mem_reverse.mp hv')

theorem mem_of_entryOf {es : List (α × β)} {k : α} {v : β} (h : entryOf es k = some v) :
    (k, v) ∈ es := List.mem_reverse.mp (SortedMap.mem_of_lookup h)

end Lookup

section Evaluation
variable {outer : String → Option RubyObject}

def memberConstants (cs : List TEnumValue) : List (String × RubyObject) :=
  ((cs.filter fun c => isConstantName (capitalize c.name).toList).map fun c =>
    (capitalize c.name, RubyObject.int c.value.toInt)).reverse

theorem mem_memberConstants {cs : List TEnumValue} {name : String} {x : RubyObject} :
    (name, x) ∈ memberConstants cs ↔ ∃ c ∈ cs, isConstantName name.toList = true ∧
      capitalize c.name = name ∧ x = .int c.value.toInt := by
  unfold memberConstants
  rw [List.mem_reverse, List.mem_map]
  constructor
  · rintro ⟨c, hc, heq⟩
    obtain ⟨rfl, rfl⟩ := Prod.mk.inj heq
    obtain ⟨hc, hkind⟩ := List.mem_filter.mp hc
    exact ⟨c, hc, hkind, rfl, rfl⟩
  · rintro ⟨c, hc, hkind, rfl, rfl⟩
    exact ⟨c, List.mem_filter.mpr ⟨hc, hkind⟩, rfl⟩

theorem isConstantName_iff (name : List Char) :
    isConstantName name = true ↔ nameKind name = .constant := by
  unfold isConstantName
  exact beq_iff_eq

theorem run_assigns {cs : List TEnumValue} {b b' : Body}
    (h : (cs.map fun c => Statement.assign (capitalize c.name) c.value.toInt).foldlM
      (Body.run outer) b = some b') : b'.constants = memberConstants cs ++ b.constants := by
  induction cs generalizing b with
  | nil =>
    obtain rfl := Option.some.inj h
    rfl
  | cons c cs ih =>
    rw [List.map_cons, List.foldlM_cons] at h
    obtain ⟨d, hd, h⟩ := Option.bind_eq_some_iff.mp h
    rw [ih h]
    unfold Body.run at hd
    unfold memberConstants
    dsimp only at hd
    split at hd
    · rename_i hkind
      replace hkind := (isConstantName_iff _).mpr hkind
      rw [← Option.some.inj hd, List.filter_cons_of_pos (by simpa using hkind),
        List.map_cons, List.reverse_cons, List.append_assoc]
      rfl
    · rename_i hkind
      have hother : ¬ isConstantName (capitalize c.name).toList = true := by
        rw [isConstantName_iff, hkind]
        simp
      rw [← Option.some.inj hd, List.filter_cons_of_neg (by simpa using hother)]
    · cases hd

theorem run_assigns_constants {cs : List TEnumValue}
    (hkind : ∀ c ∈ cs, isConstantName (capitalize c.name).toList = true) (b : Body) :
    ∃ b', (cs.map fun c => Statement.assign (capitalize c.name) c.value.toInt).foldlM
      (Body.run outer) b = some b' := by
  induction cs generalizing b with
  | nil => exact ⟨b, rfl⟩
  | cons c cs ih =>
    rw [List.map_cons, List.foldlM_cons]
    have hrun : Body.run outer b (.assign (capitalize c.name) c.value.toInt) =
        some (b.define (capitalize c.name) (.int c.value.toInt)) := by
      unfold Body.run
      dsimp only
      rw [(isConstantName_iff _).mp (hkind c (by simp))]
    rw [hrun]
    exact ih (fun c' hc' => hkind c' (by simp [hc'])) _

def withMaps (tenum : TEnum) (before : List (String × RubyObject)) : List (String × RubyObject) :=
  ("INVERTED_VALUE_MAP",
      .invertedValueMap (tenum.constants.map fun c => (capitalize c.name, c.value.toInt))) ::
    ("VALUE_MAP", .valueMap (tenum.constants.map fun c => (c.value.toInt, capitalize c.name))) ::
    (memberConstants tenum.constants ++ before)

theorem run_body_iff {tenum : TEnum} {before : List (String × RubyObject)} {b : Body} :
    (generateEnum tenum).body.foldlM (Body.run outer) { constants := before } = some b ↔ ∃ d,
      (tenum.constants.map fun c => Statement.assign (capitalize c.name) c.value.toInt).foldlM
        (Body.run outer) { constants := before } = some d ∧
      Body.const outer ⟨withMaps tenum before, d.locals⟩ "Set" = some .setClass ∧
      ∃ xs, (tenum.constants.map fun c => capitalize c.name).mapM
          (Body.read outer ⟨withMaps tenum before, d.locals⟩) = some xs ∧
        b = ⟨("VALID_VALUES", .validValues xs) :: withMaps tenum before, d.locals⟩ := by
  unfold generateEnum
  rw [List.foldlM_append]
  change Option.bind _ _ = some b ↔ _
  rw [Option.bind_eq_some_iff]
  refine exists_congr fun d => and_congr_right fun hd => ?_
  have hconstants := run_assigns hd
  have hmaps : (d.define "VALUE_MAP" (.valueMap (tenum.constants.map fun c =>
        (c.value.toInt, capitalize c.name)))).define "INVERTED_VALUE_MAP" (.invertedValueMap
          (tenum.constants.map fun c => (capitalize c.name, c.value.toInt))) =
      ⟨withMaps tenum before, d.locals⟩ := by
    unfold withMaps Body.define
    rw [hconstants]
  change Option.bind (Body.run outer (Body.define (Body.define d _ _) _ _) _) some = some b ↔ _
  rw [hmaps, Option.bind_fun_some]
  unfold Body.run
  dsimp only
  constructor
  · intro h
    split at h
    · rename_i hset
      obtain ⟨xs, hxs, h⟩ := Option.bind_eq_some_iff.mp h
      exact ⟨hset, xs, hxs, (Option.some.inj h).symm⟩
    · cases h
  · rintro ⟨hset, xs, hxs, rfl⟩
    rw [hset]
    dsimp only
    rw [hxs]
    rfl

variable {place : Place} {tenum : TEnum} {before : List (String × RubyObject)}

theorem openModule_iff {name : String} {b : Body} :
    openModule place name = some b ↔ isConstantName name.toList = true ∧
      (place.own name = none ∨ ∃ constants, place.own name = some (.module constants)) ∧
      b = { constants := constantsOf (place.own name) } := by
  unfold openModule
  split
  · rename_i hname
    rw [and_iff_right hname]
    cases hown : place.own name with
    | none => simp [constantsOf, eq_comm]
    | some x => cases x <;> simp [constantsOf, eq_comm]
  · rename_i hname
    exact iff_of_false (by simp) fun h => hname h.1

theorem evaluate_iff {b : Body} : evaluate place (generateEnum tenum) = some b ↔
    isConstantName (capitalize tenum.name).toList = true ∧
    (place.own (capitalize tenum.name) = none ∨
      ∃ constants, place.own (capitalize tenum.name) = some (.module constants)) ∧
    (generateEnum tenum).body.foldlM (Body.run (inside place (capitalize tenum.name)))
      { constants := constantsOf (place.own (capitalize tenum.name)) } = some b := by
  unfold evaluate
  rw [Option.bind_eq_some_iff]
  constructor
  · rintro ⟨b₀, hopen, hrun⟩
    obtain ⟨hname, hvacant, rfl⟩ := openModule_iff.mp hopen
    exact ⟨hname, hvacant, hrun⟩
  · rintro ⟨hname, hvacant, hrun⟩
    exact ⟨_, openModule_iff.mpr ⟨hname, hvacant, rfl⟩, hrun⟩

theorem lookup_withMaps {name : String} (hfree : name ∉ ownNames) :
    (withMaps tenum before).lookup name =
      (memberConstants tenum.constants ++ before).lookup name := by
  unfold ownNames at hfree
  simp only [List.mem_cons, not_or] at hfree
  unfold withMaps
  rw [SortedMap.lookup_cons_if, if_neg hfree.2.2.1, SortedMap.lookup_cons_if, if_neg hfree.2.1]

theorem lookup_set : (withMaps tenum before).lookup "Set" =
    (memberConstants tenum.constants ++ before).lookup "Set" := by
  have hinverted : "Set" ≠ "INVERTED_VALUE_MAP" := by decide
  have hvalue : "Set" ≠ "VALUE_MAP" := by decide
  unfold withMaps
  rw [SortedMap.lookup_cons_if, if_neg hinverted, SortedMap.lookup_cons_if, if_neg hvalue]

theorem lookup_member (h : OwnConstants place tenum) {c : TEnumValue}
    (hc : c ∈ tenum.constants) :
    (memberConstants tenum.constants ++ before).lookup (capitalize c.name) =
      some (.int c.value.toInt) := by
  have hmember : (memberConstants tenum.constants).lookup (capitalize c.name) =
      some (.int c.value.toInt) := by
    refine lookup_of_agreeing (mem_memberConstants.mpr ⟨c, hc, h.kind c hc, rfl, rfl⟩)
      fun x hx => ?_
    obtain ⟨c', hc', -, hname, rfl⟩ := mem_memberConstants.mp hx
    rw [(h.paired c' hc' c hc).mpr hname]
  rw [List.lookup_append, hmember]
  rfl

theorem lookup_set_before (h : ∀ c ∈ tenum.constants, capitalize c.name ≠ "Set") :
    (withMaps tenum before).lookup "Set" = before.lookup "Set" := by
  rw [lookup_set, List.lookup_append]
  cases hlookup : (memberConstants tenum.constants).lookup "Set" with
  | none => rfl
  | some x =>
    obtain ⟨c, hc, -, hname, -⟩ := mem_memberConstants.mp (SortedMap.mem_of_lookup hlookup)
    exact absurd hname (h c hc)

theorem OwnConstants.noSet (h : OwnConstants place tenum) :
    ∀ c ∈ tenum.constants, capitalize c.name ≠ "Set" := by
  intro c hc hname
  apply h.free c hc
  rw [hname]
  exact List.mem_cons_self

theorem read_members (h : OwnConstants place tenum) (locals : List (String × ℤ)) :
    (tenum.constants.map fun c => capitalize c.name).mapM
        (Body.read outer ⟨withMaps tenum before, locals⟩) =
      some (tenum.constants.map fun c => .int c.value.toInt) := by
  have hread : ∀ c ∈ tenum.constants,
      Body.read outer ⟨withMaps tenum before, locals⟩ (capitalize c.name) =
        some (.int c.value.toInt) := by
    intro c hc
    unfold Body.read Body.const
    rw [(isConstantName_iff _).mp (h.kind c hc)]
    dsimp only
    rw [lookup_withMaps (h.free c hc), lookup_member h hc]
    rfl
  have hlist : ∀ cs : List TEnumValue, (∀ c ∈ cs, c ∈ tenum.constants) →
      (cs.map fun c => capitalize c.name).mapM
          (Body.read outer ⟨withMaps tenum before, locals⟩) =
        some (cs.map fun c => .int c.value.toInt) := by
    intro cs
    induction cs with
    | nil => exact fun _ => rfl
    | cons c cs ih =>
      intro hcs
      rw [List.map_cons, List.mapM_cons, hread c (hcs c (by simp)),
        ih fun c' hc' => hcs c' (by simp [hc'])]
      rfl
  exact hlist _ fun c hc => hc

theorem inverted_of_ownConstants (h : OwnConstants place tenum) :
    ∀ c ∈ tenum.constants, entryOf (tenum.constants.map fun c =>
      (capitalize c.name, c.value.toInt)) (capitalize c.name) = some c.value.toInt := by
  intro c hc
  refine entryOf_of_agreeing (List.mem_map_of_mem hc) fun n hn => ?_
  obtain ⟨c', hc', heq⟩ := List.mem_map.mp hn
  obtain ⟨hname, rfl⟩ := Prod.mk.inj heq
  rw [(h.paired c' hc' c hc).mpr hname]

theorem value_of_ownConstants (h : OwnConstants place tenum) :
    ∀ c ∈ tenum.constants, entryOf (tenum.constants.map fun c =>
      (c.value.toInt, capitalize c.name)) c.value.toInt = some (capitalize c.name) := by
  intro c hc
  refine entryOf_of_agreeing (List.mem_map_of_mem hc) fun name hname => ?_
  obtain ⟨c', hc', heq⟩ := List.mem_map.mp hname
  obtain ⟨hval, rfl⟩ := Prod.mk.inj heq
  exact (h.paired c' hc' c hc).mp (Int32.toInt_inj.mp hval)

theorem coherent_of_ownConstants (h : OwnConstants place tenum) :
    ∃ b, evaluate place (generateEnum tenum) = some b ∧ Coherent tenum b := by
  obtain ⟨d, hd⟩ := @run_assigns_constants (inside place (capitalize tenum.name)) _ h.kind
    { constants := constantsOf (place.own (capitalize tenum.name)) }
  have hset : Body.const (inside place (capitalize tenum.name)) ⟨withMaps tenum
      (constantsOf (place.own (capitalize tenum.name))), d.locals⟩ "Set" = some .setClass := by
    unfold Body.const
    rw [lookup_set_before h.noSet]
    exact h.setClass
  have hrun := run_body_iff.mpr ⟨d, hd, hset, _, read_members h _, rfl⟩
  refine ⟨_, evaluate_iff.mpr ⟨h.name, h.vacant, hrun⟩, ?_, ?_⟩
  · intro c hc
    have hfree := h.free c hc
    unfold Body.constant
    rw [if_pos (h.kind c hc), SortedMap.lookup_cons_if, if_neg (by simp_all [ownNames]),
      lookup_withMaps hfree, lookup_member h hc]
  have hinverted := inverted_of_ownConstants h
  have hvalue := value_of_ownConstants h
  refine ⟨_, _, _, rfl, rfl, rfl, fun c hc => ⟨hinverted c hc, hvalue c hc⟩, fun n name => ?_, ?_⟩
  · constructor
    · intro hentry
      obtain ⟨c, hc, heq⟩ := List.mem_map.mp (mem_of_entryOf hentry)
      obtain ⟨rfl, rfl⟩ := Prod.mk.inj heq
      exact hinverted c hc
    · intro hentry
      obtain ⟨c, hc, heq⟩ := List.mem_map.mp (mem_of_entryOf hentry)
      obtain ⟨rfl, rfl⟩ := Prod.mk.inj heq
      exact hvalue c hc
  · intro x
    rw [List.mem_map]
    exact ⟨fun ⟨c, hc, heq⟩ => ⟨c, hc, heq.symm⟩, fun ⟨c, hc, heq⟩ => ⟨c, hc, heq.symm⟩⟩

theorem Coherent.lookup {b : Body} {locals : List (String × ℤ)} {xs : List RubyObject}
    (hb : b = ⟨("VALID_VALUES", .validValues xs) :: withMaps tenum before, locals⟩)
    (h : Coherent tenum b) {c : TEnumValue} (hc : c ∈ tenum.constants) :
    isConstantName (capitalize c.name).toList = true ∧
      capitalize c.name ≠ "VALUE_MAP" ∧ capitalize c.name ≠ "INVERTED_VALUE_MAP" ∧
      capitalize c.name ≠ "VALID_VALUES" ∧
      (memberConstants tenum.constants ++ before).lookup (capitalize c.name) =
        some (.int c.value.toInt) := by
  have hlookup := h.constants c hc
  unfold Body.constant at hlookup
  split at hlookup
  · rename_i hname
    rw [hb] at hlookup
    unfold withMaps at hlookup
    simp only [SortedMap.lookup_cons_if] at hlookup
    split at hlookup
    · cases hlookup
    split at hlookup
    · cases hlookup
    split at hlookup
    · cases hlookup
    exact ⟨hname, ‹_›, ‹_›, ‹_›, hlookup⟩
  · cases hlookup

theorem ownConstants_of_coherent {b : Body}
    (he : evaluate place (generateEnum tenum) = some b) (h : Coherent tenum b) :
    OwnConstants place tenum := by
  obtain ⟨hname, hvacant, hrun⟩ := evaluate_iff.mp he
  obtain ⟨d, -, hset, xs, -, hb⟩ := run_body_iff.mp hrun
  have hnoSet : ∀ c ∈ tenum.constants, capitalize c.name ≠ "Set" := by
    intro c hc hname
    obtain ⟨-, -, -, -, hlookup⟩ := h.lookup hb hc
    unfold Body.const at hset
    rw [lookup_set, ← hname, hlookup] at hset
    cases hset
  refine ⟨hname, hvacant, fun c hc => (h.lookup hb hc).1, ?_, ?_, ?_⟩
  · intro c hc hmem
    obtain ⟨-, hvalue, hinverted, hvalid, -⟩ := h.lookup hb hc
    simp only [ownNames, List.mem_cons, List.not_mem_nil, or_false] at hmem
    rcases hmem with hname | hname | hname | hname
    · exact hnoSet c hc hname
    · exact hvalue hname
    · exact hinverted hname
    · exact hvalid hname
  · obtain ⟨valueMap, invertedValueMap, validValues, -, -, -, hmembers, -, -⟩ := h.maps
    intro c hc c' hc'
    obtain ⟨hname, hvalue⟩ := hmembers c hc
    obtain ⟨hname', hvalue'⟩ := hmembers c' hc'
    constructor
    · intro heq
      rw [heq, hvalue'] at hvalue
      exact (Option.some.inj hvalue).symm
    · intro heq
      rw [heq, hname'] at hname
      exact (Int32.toInt_inj.mp (Option.some.inj hname)).symm
  · unfold Body.const at hset
    rw [lookup_set_before hnoSet] at hset
    exact hset

/-- The module of an enum is coherent exactly when it can be opened and its members become
    constants of their own, two of one value having one name. -/
theorem coherent_iff_ownConstants (place : Place) (tenum : TEnum) :
    (∃ b, evaluate place (generateEnum tenum) = some b ∧ Coherent tenum b) ↔
      OwnConstants place tenum :=
  ⟨fun ⟨_, he, h⟩ => ownConstants_of_coherent he h, coherent_of_ownConstants⟩

end Evaluation

section Examples
open AuditReflexivity

/-- `enum Light { red = 1, Red = 2 }` -/
def twoReds : IdlFile where
  definitions := [.enum "Light" [("red", some 1), ("Red", some 2)]]

/-- Names that differ in the case of their first letter are accepted and become one constant. -/
theorem twoReds_not_coherent : ∃ pass tenum, parseAlone twoReds = .ok pass ∧
    pass.program.enums = [tenum] ∧
    ∀ place, ¬ ∃ b, evaluate place (generateEnum tenum) = some b ∧ Coherent tenum b := by
  refine ⟨_, _, rfl, rfl, fun place ⟨b, he, h⟩ => ?_⟩
  have hpaired := (ownConstants_of_coherent he h).paired ⟨"red", 1⟩ (by simp) ⟨"Red", 2⟩ (by simp)
  exact absurd (hpaired.mpr (by decide)) (by decide)

end Examples

end Sparsam.EnumModules
