import Sparsam.UnionObject

set_option autoImplicit false

/-!
# What a constructor makes of a Hash

`K.new(hash)` of a struct or an exception assigns the defaults of the class and
then what the Hash has, both through the methods of the object, before which a
field of the same name can stand. With `Sparsam::Union#initialize` this is every
constructor that a generated literal calls.
-/
namespace Sparsam.StructObject
open RubyRuntime FieldInfoCache ObjectMethods

section Rules
variable {c : RubyClass} {toS : Value → ID}

structure TakesStruct (c : RubyClass) (d : List (Value × Value)) : Prop where
  own : "initialize" ∉ c.fieldNames ∧ "assign_from_arg" ∉ c.fieldNames
  defaults : generateDefaultValues c.fields ≠ [] → "assign_defaults" ∉ c.fieldNames ∧
    ∀ e ∈ generateDefaultValues c.fields, Assignable c (rubyStr e.1)
  given : ∀ e ∈ d, Assignable c e.1

def structIvars (c : RubyClass) (d : List (Value × Value)) : Ivars :=
  d.foldl (fun iv e => assigned c e.1 e.2 iv)
    ((generateDefaultValues c.fields).foldl (fun iv e => assigned c (rubyStr e.1) e.2 iv) [])

theorem settles_structInitialize (d : List (Value × Value)) :
    Settles (TakesStruct c d)
      (fun iv => d.foldl (fun iv e => assigned c e.1 e.2 iv)
        ((generateDefaultValues c.fields).foldl (fun iv e => assigned c (rubyStr e.1) e.2 iv) iv))
      (structInitialize c toS d) := by
  have hgiven : Settles (∀ e ∈ d, Assignable c e.1)
      (fun iv => d.foldl (fun iv e => assigned c e.1 e.2 iv) iv) (assignFromArg c toS d) :=
    settles_forM fun e _ => settles_assign (unknownKey c toS e.1) e.1 e.2
  have hdefaults := settles_initializeDefaults (c := c) (generateDefaultValues c.fields)
  refine (settles_selfCall (hdefaults.seq (settles_selfCall hgiven))).congr ⟨?_, ?_⟩
  · rintro ⟨hinit, hdefaults, hassign, hall⟩
    exact ⟨⟨hinit, hassign⟩, hdefaults, hall⟩
  · rintro ⟨⟨hinit, hassign⟩, hdefaults, hall⟩
    exact ⟨hinit, hdefaults, hassign, hall⟩

structure TakesUnion (c : RubyClass) (d : List (Value × Value)) : Prop where
  own : "initialize" ∉ c.fieldNames
  one : d.length ≤ 1
  given : ∀ e ∈ d, rtest e.1 = true → Assignable c e.1 ∧ "instance_variable_set" ∉ c.fieldNames

def unionIvars (c : RubyClass) (d : List (Value × Value)) : Ivars :=
  match d with
  | [e] =>
    if rtest e.1 then
      (fieldSyms c e.1).elim [] fun f => ivarSet (ivarSet [] "@setfield" (.sym f)) ("@" ++ f) e.2
    else []
  | _ => []

theorem writer_nil (f : ID) (value : Value) :
    ("instance_variable_set" ∉ c.fieldNames → writer c toS f value [] =
        .ok () (ivarSet (ivarSet [] "@setfield" (.sym f)) ("@" ++ f) value)) ∧
      ("instance_variable_set" ∈ c.fieldNames → ∃ e iv, writer c toS f value [] = .error e iv) := by
  have hrest : writer c toS f value [] = selfCall c "instance_variable_set" 2
      (modify fun ivars => ivarSet ivars ("@" ++ f) value) (ivarSet [] "@setfield" (.sym f)) := rfl
  rw [hrest]
  unfold selfCall
  constructor
  · intro h
    rw [if_neg h]
    rfl
  · intro h
    rw [if_pos h]
    exact ⟨_, _, rfl⟩

theorem newObject_hash (d : List (Value × Value)) :
    (TakesUnion c d → newObject c toS [.hash d] = .ok () (unionIvars c d)) ∧
      (¬ TakesUnion c d → ∃ e iv, newObject c toS [.hash d] = .error e iv) := by
  by_cases hinit : "initialize" ∈ c.fieldNames
  · have hnew : newObject c toS [.hash d] = .error (.ArgumentError 1) [] := by
      unfold newObject initializeObject
      rw [if_pos hinit]
      rfl
    exact ⟨fun h => absurd hinit h.own, fun _ => ⟨_, _, hnew⟩⟩
  have hnew : newObject c toS [.hash d] = initializeWith c toS (.hash d) .nil [] := by
    unfold newObject initializeObject
    rw [if_neg hinit]
  rw [hnew]
  match d with
  | [] => exact ⟨fun _ => rfl, fun h => absurd ⟨hinit, by simp, by simp⟩ h⟩
  | e :: e' :: d => exact ⟨fun h => absurd h.one (by simp), fun _ => ⟨_, _, rfl⟩⟩
  | [e] =>
    have htakes : TakesUnion c [e] ↔
        (rtest e.1 = true → Assignable c e.1 ∧ "instance_variable_set" ∉ c.fieldNames) :=
      ⟨fun h => h.given e (by simp), fun h => ⟨hinit, by simp, by simpa using h⟩⟩
    rw [htakes]
    unfold initializeWith constructorArgs
    rw [pure_bind]
    unfold unionIvars
    dsimp only
    by_cases hname : rtest e.1 = true
    · rw [if_pos hname, if_pos hname, forall_prop_of_true hname]
      by_cases haccessors : "name_to_accessors" ∈ c.fieldNames
      · have hcall : ∀ body : Method (Option ID),
            selfCall c "name_to_accessors" 1 body = throw (.ArgumentError 1) :=
          fun body => if_pos haccessors
        rw [hcall]
        exact ⟨fun h => absurd haccessors h.1.1, fun _ => ⟨_, _, rfl⟩⟩
      have hcall : ∀ body : Method (Option ID), selfCall c "name_to_accessors" 1 body = body :=
        fun body => if_neg haccessors
      rw [hcall, pure_bind]
      cases hsyms : fieldSyms c e.1 with
      | none =>
        refine ⟨fun h => ?_, fun _ => ⟨_, _, rfl⟩⟩
        have hsome := h.1.2.2
        rw [hsyms] at hsome
        cases hsome
      | some f =>
        dsimp only
        by_cases hsend : "send" ∈ c.fieldNames
        · have hsent : selfCall c "send" 2 (writer c toS f e.2) = throw (.ArgumentError 2) :=
            if_pos hsend
          rw [hsent]
          exact ⟨fun h => absurd hsend h.1.2.1, fun _ => ⟨_, _, rfl⟩⟩
        · have hsent : selfCall c "send" 2 (writer c toS f e.2) = writer c toS f e.2 := if_neg hsend
          obtain ⟨hreturns, hraises⟩ := @writer_nil c toS f e.2
          have hassignable : Assignable c e.1 := ⟨haccessors, hsend, by rw [hsyms]; rfl⟩
          rw [hsent]
          refine ⟨fun h => hreturns h.2, fun h => hraises ?_⟩
          by_contra hset
          exact h ⟨hassignable, hset⟩
    · rw [if_neg hname, if_neg hname]
      exact ⟨fun _ => rfl, fun h => absurd (fun hrtest => absurd hrtest hname) h⟩

/-- The constructor of the class takes these entries. -/
def Takes (c : RubyClass) (d : List (Value × Value)) : Prop :=
  if c.inheritsUnion then TakesUnion c d else TakesStruct c d

def newIvars (c : RubyClass) (d : List (Value × Value)) : Ivars :=
  if c.inheritsUnion then unionIvars c d else structIvars c d

end Rules

end Sparsam.StructObject
