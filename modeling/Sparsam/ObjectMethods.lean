import Sparsam.FieldInfoCache

set_option autoImplicit false

/-!
# The methods of a generated object

`Sparsam::Union`, `Sparsam::StructInitialization` and `Sparsam::BaseStruct` call
methods on the object itself, and a generated class has a reader and a writer of
every field's name, so a field can stand before a method that they call. The
words `class` and `raise` are reserved by the lexer and are no field's name.
-/
namespace Sparsam.ObjectMethods
open RubyRuntime FieldInfoCache

inductive MethodError where
  | UnionException (msg : String)
  | Exception (msg : String)
  /-- A method without parameters is called with so many arguments. -/
  | ArgumentError (given : ℕ)
  | NameError (name : ID)
  | NoMethodError
deriving DecidableEq, Repr

def MethodError.toErr : MethodError → Err
  | .UnionException msg => .raised .UnionException msg none none
  | .Exception msg => .raised .NativeError msg none none
  | .ArgumentError given => .raised .ArgumentError
    ("wrong number of arguments (given " ++ toString given ++ ", expected 0)") none none
  | .NameError name => .raised .NameError name none none
  | .NoMethodError => .raised .NoMethodError "" none none

theorem MethodError.isRaise_toErr (e : MethodError) : e.toErr.isRaise = true := by
  cases e <;> rfl

abbrev Ivars := List (ID × Value)

/-- A method of a union, over the instance variables of its object. -/
abbrev Method := EStateM MethodError Ivars

section Methods
variable (c : RubyClass) (toS : Value → ID)

/-- A call on the object itself; a field's reader of that name takes no arguments. -/
def selfCall {α : Type} (method : ID) (given : ℕ) (body : Method α) : Method α :=
  if method ∈ c.fieldNames then throw (.ArgumentError given) else body

def interpolate : Value → ID
  | .sym name => name
  | v => toS v

def removeInstanceVariable (name : ID) : Method Unit := fun ivars =>
  if name ∈ ivars.map Prod.fst then .ok () (ivars.filter fun e => decide (e.1 ≠ name))
  else .error (.NameError name) ivars

/-- The reader of the field; `init_thrift_struct` defines `struct_fields` last. -/
def reader (f : ID) : Method Value :=
  if f = "struct_fields" then pure (.hash c.fields)
  else do
    if isSym f (ivarGet (← get) "@setfield") then
      selfCall c "instance_variable_get" 1 (do pure (ivarGet (← get) ("@" ++ f)))
    else throw (.UnionException (f ++ " is not union's set field"))

def writer (f : ID) (value : Value) : Method Unit := do
  let setfield := ivarGet (← get) "@setfield"
  if rtest setfield then
    selfCall c "remove_instance_variable" 1
      (removeInstanceVariable ("@" ++ interpolate toS setfield))
  modify fun ivars => ivarSet ivars "@setfield" (.sym f)
  selfCall c "instance_variable_set" 2 (modify fun ivars => ivarSet ivars ("@" ++ f) value)

/-- `FIELD_SYMS[name]`: the field whose accessors these are. -/
def fieldSyms : Value → Option ID
  | .sym name => if name ∈ c.fieldNames then some name else none
  | .str _ bytes => if internStr bytes ∈ c.fieldNames then some (internStr bytes) else none
  | _ => none

def getValue : Method Value :=
  if "get_value" ∈ c.fieldNames then reader c "get_value"
  else do
    let setfield := ivarGet (← get) "@setfield"
    if rtest setfield then
      match ← selfCall c "name_to_accessors" 1 (pure (fieldSyms c setfield)) with
      | none => throw .NoMethodError
      | some f => selfCall c "send" 1 (reader c f)
    else pure .nil

/-- The name and the value that the arguments of `initialize` stand for. -/
def constructorArgs : Value → Value → Method (Value × Value)
  | .hash [], _ => pure (.nil, .nil)
  | .hash [e], _ => pure e
  | .hash _, _ =>
    throw (.UnionException (c.name ++ " cannot be instantiated with more than one field!"))
  | name, value => pure (name, value)

def initializeWith (name value : Value) : Method Unit := do
  let (name, value) ← constructorArgs c name value
  if rtest name then
    match ← selfCall c "name_to_accessors" 1 (pure (fieldSyms c name)) with
    | none =>
      throw (.Exception ("Unknown key given to " ++ c.name ++ ".new: " ++ interpolate toS name))
    | some f => selfCall c "send" 2 (writer c toS f value)
  else pure ()

def initializeObject : List Value → Method Unit := fun args =>
  if "initialize" ∈ c.fieldNames then
    match args with
    | [] => do
      let _ ← reader c "initialize"
      pure ()
    | _ => throw (.ArgumentError args.length)
  else
    match args with
    | [] => initializeWith c toS .nil .nil
    | [name] => initializeWith c toS name .nil
    | [name, value] => initializeWith c toS name value
    | _ => throw (.ArgumentError args.length)

def newObject (args : List Value) : EStateM.Result MethodError Ivars Unit :=
  initializeObject c toS args []

/-- `send(accessors.writer, value)` with the accessors of the name, of which the writer is
    the one that `attr_accessor` defines. -/
def assign (missing : MethodError) (name value : Value) : Method Unit := do
  match ← selfCall c "name_to_accessors" 1 (pure (fieldSyms c name)) with
  | none => throw missing
  | some f => selfCall c "send" 2 (modify fun ivars => ivarSet ivars ("@" ++ f) value)

def assignDefaults (defaults : List (ID × Value)) : Method Unit :=
  defaults.forM fun d => assign c .NoMethodError (rubyStr d.1) d.2

def unknownKey (name : Value) : MethodError :=
  .Exception ("Unknown key given to " ++ c.name ++ ".new: " ++ interpolate toS name)

def assignFromArg (d : List (Value × Value)) : Method Unit :=
  d.forM fun e => assign c (unknownKey c toS e.1) e.1 e.2

def initializeDefaults (defaults : List (ID × Value)) : Method Unit :=
  match defaults with
  | [] => pure ()
  | d :: ds => selfCall c "assign_defaults" 1 (assignDefaults c (d :: ds))

def structInitialize (d : List (Value × Value)) : Method Unit :=
  selfCall c "initialize" 1 do
    initializeDefaults c (generateDefaultValues c.fields)
    selfCall c "assign_from_arg" 1 (assignFromArg c toS d)

/-- `K.new(hash)` of a generated class -/
def construct (d : List (Value × Value)) : EStateM.Result MethodError Ivars Unit :=
  if c.inheritsUnion then newObject c toS [.hash d] else structInitialize c toS d []

/-- `x.f`, where `f` is a field of the class of `x`. -/
def callReader (f : ID) (ivars : Ivars) : Except Err Value :=
  if c.inheritsUnion then
    match reader c f ivars with
    | .ok v _ => .ok v
    | .error e _ => .error e.toErr
  else if f = "struct_fields" then .ok (.hash c.fields)
  else .ok (ivarGet ivars ("@" ++ f))

/-- `K.new` of a generated class. A reader that `attr_accessor` defines takes no arguments
    either, and without a name nothing is interpolated. -/
def newBare : EStateM.Result MethodError Ivars Unit :=
  if c.inheritsUnion then newObject c (fun _ => "") []
  else if "initialize" ∈ c.fieldNames then .ok () []
  else initializeDefaults c (generateDefaultValues c.fields) []

end Methods

/-- Whatever the object holds, the method sets this when the condition holds and raises
    when it does not. -/
structure Settles (P : Prop) (f : Ivars → Ivars) (m : Method Unit) : Prop where
  returns : P → ∀ iv, m iv = .ok () (f iv)
  raises : ¬ P → ∀ iv, ∃ e iv', m iv = .error e iv'

section Rules
variable {P Q : Prop} {f g : Ivars → Ivars} {m n : Method Unit}

theorem settles_pure : Settles True id (pure ()) := ⟨fun _ _ => rfl, fun h => absurd trivial h⟩

theorem settles_throw (e : MethodError) (f : Ivars → Ivars) : Settles False f (throw e) :=
  ⟨False.elim, fun _ iv => ⟨e, iv, rfl⟩⟩

theorem settles_modify (f : Ivars → Ivars) : Settles True f (modify f) :=
  ⟨fun _ _ => rfl, fun h => absurd trivial h⟩

theorem Settles.congr (h : Settles P f m) (hiff : P ↔ Q) : Settles Q f m := by
  rw [← hiff]
  exact h

theorem bind_ok {iv iv' : Ivars} (h : m iv = .ok () iv') : (do m; n : Method Unit) iv = n iv' := by
  change EStateM.bind m _ iv = _
  unfold EStateM.bind
  rw [h]

theorem bind_error {iv iv' : Ivars} {e : MethodError} (h : m iv = .error e iv') :
    (do m; n : Method Unit) iv = .error e iv' := by
  change EStateM.bind m _ iv = _
  unfold EStateM.bind
  rw [h]

theorem Settles.seq (hm : Settles P f m) (hn : Settles Q g n) :
    Settles (P ∧ Q) (g ∘ f) (do m; n) := by
  constructor
  · rintro ⟨hp, hq⟩ iv
    rw [bind_ok (hm.returns hp iv)]
    exact hn.returns hq (f iv)
  · intro h iv
    by_cases hp : P
    · rw [bind_ok (hm.returns hp iv)]
      exact hn.raises (fun hq => h ⟨hp, hq⟩) (f iv)
    · obtain ⟨e, iv', he⟩ := hm.raises hp iv
      exact ⟨e, iv', bind_error he⟩

theorem settles_forM {α : Type} {xs : List α} {P : α → Prop} {f : α → Ivars → Ivars}
    {m : α → Method Unit} (h : ∀ x ∈ xs, Settles (P x) (f x) (m x)) :
    Settles (∀ x ∈ xs, P x) (fun iv => xs.foldl (fun iv x => f x iv) iv) (xs.forM m) := by
  induction xs with
  | nil => exact settles_pure.congr (by simp)
  | cons x xs ih =>
    have hseq := (h x (by simp)).seq (ih fun y hy => h y (by simp [hy]))
    exact hseq.congr (by rw [List.forall_mem_cons])

variable {c : RubyClass} {toS : Value → ID}

theorem settles_selfCall {method : ID} {given : ℕ} (h : Settles P f m) :
    Settles (method ∉ c.fieldNames ∧ P) f (selfCall c method given m) := by
  unfold selfCall
  by_cases hname : method ∈ c.fieldNames
  · rw [if_pos hname]
    exact (settles_throw _ f).congr (by simp [hname])
  · rw [if_neg hname]
    exact h.congr (by simp [hname])

/-- The name is a field's, and no field stands before the methods that assign it. -/
def Assignable (c : RubyClass) (name : Value) : Prop :=
  "name_to_accessors" ∉ c.fieldNames ∧ "send" ∉ c.fieldNames ∧ (fieldSyms c name).isSome = true

theorem reader_error {f : ID} {ivars iv : Ivars} {e : MethodError}
    (h : reader c f ivars = .error e iv) :
    e.toErr.cls = some .UnionException ∨ e.toErr.cls = some .ArgumentError := by
  unfold reader at h
  split at h
  · cases h
  · change (if isSym f (ivarGet ivars "@setfield") then _ else _ : Method Value) ivars = _ at h
    by_cases hset : isSym f (ivarGet ivars "@setfield") = true
    · rw [if_pos hset] at h
      unfold selfCall at h
      split at h
      · cases h
        exact .inr rfl
      · cases h
    · rw [if_neg hset] at h
      cases h
      exact .inl rfl

theorem callReader_class {f : ID} {ivars : Ivars} {e : Err} (h : callReader c f ivars = .error e) :
    e.cls = some .UnionException ∨ e.cls = some .ArgumentError := by
  unfold callReader at h
  split at h
  · cases hread : reader c f ivars with
    | ok v iv =>
      rw [hread] at h
      cases h
    | error e' iv =>
      rw [hread] at h
      cases h
      exact reader_error hread
  · split at h <;> cases h

def assigned (c : RubyClass) (name value : Value) (iv : Ivars) : Ivars :=
  (fieldSyms c name).elim iv fun f => ivarSet iv ("@" ++ f) value

theorem settles_assign (missing : MethodError) (name value : Value) :
    Settles (Assignable c name) (assigned c name value) (assign c missing name value) := by
  unfold assign Assignable assigned
  by_cases haccessors : "name_to_accessors" ∈ c.fieldNames
  · have hcall : ∀ body : Method (Option ID),
        selfCall c "name_to_accessors" 1 body = throw (.ArgumentError 1) :=
      fun body => if_pos haccessors
    rw [hcall]
    exact (settles_throw (.ArgumentError 1) _).congr (by simp [haccessors])
  · have hcall : ∀ body : Method (Option ID), selfCall c "name_to_accessors" 1 body = body :=
      fun body => if_neg haccessors
    rw [hcall, pure_bind]
    cases fieldSyms c name with
    | none => exact (settles_throw _ _).congr (by simp)
    | some f =>
      exact (settles_selfCall (settles_modify _)).congr (by simp [haccessors])

theorem settles_initializeDefaults (defaults : List (ID × Value)) :
    Settles (defaults ≠ [] → "assign_defaults" ∉ c.fieldNames ∧
        ∀ d ∈ defaults, Assignable c (rubyStr d.1))
      (fun iv => defaults.foldl (fun iv d => assigned c (rubyStr d.1) d.2 iv) iv)
      (initializeDefaults c defaults) := by
  cases defaults with
  | nil => exact settles_pure.congr (by simp)
  | cons d ds =>
    have hall : Settles (∀ e ∈ d :: ds, Assignable c (rubyStr e.1))
        (fun iv => (d :: ds).foldl (fun iv e => assigned c (rubyStr e.1) e.2 iv) iv)
        (assignDefaults c (d :: ds)) :=
      settles_forM fun e _ => settles_assign .NoMethodError (rubyStr e.1) e.2
    exact (settles_selfCall hall).congr (by simp)

theorem sym_rubyStr (bytes : List UInt8) : fieldNameToSym (rubyStr (internStr bytes)) =
    internStr bytes := by
  have hbytes : ∀ b : UInt8, UInt8.ofNat (Char.ofNat b.toNat).toNat = b := by
    intro b
    have hvalid : b.toNat.isValidChar := .inl (by have := b.toNat_lt; omega)
    have hchar : (Char.ofNat b.toNat).toNat = b.toNat := by
      unfold Char.ofNat
      rw [dif_pos hvalid]
      rfl
    rw [hchar, UInt8.ofNat_toNat]
  unfold rubyStr fieldNameToSym internStr
  simp [List.map_map, Function.comp_def, hbytes]

theorem fieldSyms_default {d : ID × Value} (h : d ∈ generateDefaultValues c.fields) :
    fieldSyms c (rubyStr d.1) = some d.1 := by
  obtain ⟨e, he, hd⟩ := List.mem_filterMap.mp h
  have hmem : fieldDefName e.2 ∈ c.fieldNames := List.mem_map_of_mem he
  cases hdef : e.2 with
  | hash fieldDef =>
    rw [hdef] at hd hmem
    dsimp only at hd
    split at hd
    · cases hd
    · rw [← Option.some.inj hd]
      dsimp only
      change fieldNameToSym (hashAref "name" fieldDef) ∈ c.fieldNames at hmem
      have hname : internStr ((fieldNameToSym (hashAref "name" fieldDef)).toList.map
          fun c => UInt8.ofNat c.toNat) = fieldNameToSym (hashAref "name" fieldDef) := by
        cases hashAref "name" fieldDef with
        | str enc bytes => exact sym_rubyStr bytes
        | _ => rfl
      unfold rubyStr fieldSyms
      dsimp only
      rw [hname, if_pos hmem]
  | _ =>
    rw [hdef] at hd
    cases hd

/-- `K.new` makes an object. -/
def MakesBare (c : RubyClass) : Prop :=
  if c.inheritsUnion then "initialize" ∉ c.fieldNames
  else "initialize" ∈ c.fieldNames ∨ generateDefaultValues c.fields = [] ∨
    "assign_defaults" ∉ c.fieldNames ∧ "name_to_accessors" ∉ c.fieldNames ∧ "send" ∉ c.fieldNames

instance (c : RubyClass) : Decidable (MakesBare c) := by
  unfold MakesBare
  infer_instance

def defaultIvars (defaults : List (ID × Value)) : Ivars :=
  defaults.foldl (fun iv d => ivarSet iv ("@" ++ d.1) d.2) []

def bareIvars (c : RubyClass) : Ivars :=
  if c.inheritsUnion ∨ "initialize" ∈ c.fieldNames then []
  else defaultIvars (generateDefaultValues c.fields)

theorem assigned_defaults : (generateDefaultValues c.fields).foldl
    (fun iv d => assigned c (rubyStr d.1) d.2 iv) [] =
      defaultIvars (generateDefaultValues c.fields) := by
  unfold defaultIvars
  apply List.foldl_ext
  intro iv d hd
  unfold assigned
  rw [fieldSyms_default hd]
  rfl

theorem ivarGet_defaultIvars (defaults : List (ID × Value)) (name : ID) :
    ivarGet (defaultIvars defaults) name = .nil ∨
      ∃ d ∈ defaults, name = "@" ++ d.1 ∧ ivarGet (defaultIvars defaults) name = d.2 := by
  have hfold : ∀ iv : Ivars, ivarGet (defaults.foldl (fun iv d => ivarSet iv ("@" ++ d.1) d.2) iv)
      name = ivarGet iv name ∨ ∃ d ∈ defaults, name = "@" ++ d.1 ∧
        ivarGet (defaults.foldl (fun iv d => ivarSet iv ("@" ++ d.1) d.2) iv) name = d.2 := by
    induction defaults with
    | nil => exact fun _ => .inl rfl
    | cons d ds ih =>
      intro iv
      rw [List.foldl_cons]
      rcases ih (ivarSet iv ("@" ++ d.1) d.2) with h | ⟨d', hd', hname, hval⟩
      · rw [h, ivarGet_ivarSet]
        by_cases hname : "@" ++ d.1 = name
        · exact .inr ⟨d, by simp, hname.symm, if_pos hname⟩
        · exact .inl (if_neg hname)
      · exact .inr ⟨d', List.mem_cons_of_mem _ hd', hname, hval⟩
  exact hfold []

theorem ivarGet_defaultIvars_ne_nil {defaults : List (ID × Value)} (h : ∀ d ∈ defaults, d.2 ≠ .nil)
    {d : ID × Value} (hd : d ∈ defaults) : ivarGet (defaultIvars defaults) ("@" ++ d.1) ≠ .nil := by
  have hfold : ∀ iv : Ivars, (d ∈ defaults ∨ ivarGet iv ("@" ++ d.1) ≠ .nil) →
      ivarGet (defaults.foldl (fun iv d => ivarSet iv ("@" ++ d.1) d.2) iv)
        ("@" ++ d.1) ≠ .nil := by
    clear hd
    induction defaults with
    | nil => exact fun iv h => h.resolve_left List.not_mem_nil
    | cons d' ds ih =>
      intro iv hiv
      obtain ⟨hd', hds⟩ := List.forall_mem_cons.mp h
      rw [List.foldl_cons]
      apply ih hds
      rw [ivarGet_ivarSet]
      rcases hiv with hmem | hne
      · rcases List.mem_cons.mp hmem with rfl | hmem
        · exact .inr (by simpa using hd')
        · exact .inl hmem
      · right
        split
        · exact hd'
        · exact hne
  exact hfold [] (.inl hd)

theorem default_ne_nil {fields : List (Value × Value)} {d : ID × Value}
    (h : d ∈ generateDefaultValues fields) : d.2 ≠ .nil := by
  obtain ⟨e, -, hd⟩ := List.mem_filterMap.mp h
  cases hdef : e.2 with
  | hash fieldDef =>
    rw [hdef] at hd
    dsimp only at hd
    split at hd
    · cases hd
    · rename_i hnil
      rw [← Option.some.inj hd]
      exact fun hval => hnil ((Value.isNil_eq_true _).mpr hval)
  | _ =>
    rw [hdef] at hd
    cases hd

/-- A field can stand before the constructor of a struct, which then assigns no default, or
    before a method that it calls, and then it raises. -/
theorem newBare_makes (c : RubyClass) : (MakesBare c → newBare c = .ok () (bareIvars c)) ∧
    (¬ MakesBare c → ∃ e iv, newBare c = .error e iv) := by
  unfold MakesBare newBare bareIvars
  cases hunion : c.inheritsUnion with
  | true =>
    simp only [if_true, true_or]
    unfold newObject initializeObject
    by_cases hinit : "initialize" ∈ c.fieldNames
    · rw [if_pos hinit]
      exact ⟨fun h => absurd hinit h, fun _ => ⟨_, _, rfl⟩⟩
    · rw [if_neg hinit]
      exact ⟨fun _ => rfl, fun h => absurd hinit h⟩
  | false =>
    simp only [Bool.false_eq_true, if_false, false_or]
    by_cases hinit : "initialize" ∈ c.fieldNames
    · simp only [hinit, if_true, true_or, not_true_eq_false, false_implies, true_implies, and_self]
    · simp only [hinit, if_false, false_or]
      have hsettles := settles_initializeDefaults (c := c) (generateDefaultValues c.fields)
      have hassign : (generateDefaultValues c.fields = [] ∨ "assign_defaults" ∉ c.fieldNames ∧
          "name_to_accessors" ∉ c.fieldNames ∧ "send" ∉ c.fieldNames) ↔
          (generateDefaultValues c.fields ≠ [] → "assign_defaults" ∉ c.fieldNames ∧
            ∀ d ∈ generateDefaultValues c.fields, Assignable c (rubyStr d.1)) := by
        constructor
        · rintro (h | ⟨h, haccessors, hsend⟩) hne
          · exact absurd h hne
          · exact ⟨h, fun d hd => ⟨haccessors, hsend, by rw [fieldSyms_default hd]; rfl⟩⟩
        · intro h
          by_cases hnil : generateDefaultValues c.fields = []
          · exact .inl hnil
          · obtain ⟨hassign, hall⟩ := h hnil
            obtain ⟨d, hd⟩ := List.exists_mem_of_ne_nil _ hnil
            exact .inr ⟨hassign, (hall d hd).1, (hall d hd).2.1⟩
      rw [hassign, ← assigned_defaults]
      exact ⟨fun h => hsettles.returns h [], fun h => hsettles.raises h []⟩

end Rules

section Schema
variable (sch : Schema)

def Makes (klass : VALUE) : Prop := ∀ c ∈ sch.findClass klass, MakesBare c

instance (klass : VALUE) : Decidable (Makes sch klass) := by
  unfold Makes
  infer_instance

def newIvars (klass : VALUE) : Ivars := (sch.findClass klass).elim [] bareIvars

variable {sch}

theorem newIvars_cases (klass : VALUE) (h : (sch.fieldInfoMap klass).isSome) :
    newIvars sch klass = [] ∨ newIvars sch klass = defaultIvars (sch.defaultValues klass) := by
  obtain ⟨c, hc, -, -, hdefaults⟩ := sch.classes klass h
  unfold newIvars
  rw [hc, hdefaults]
  dsimp only [Option.elim]
  unfold bareIvars
  split
  · exact .inl rfl
  · exact .inr rfl

/-- The methods of the base classes that `new` calls, and those through which Ruby compares
    objects. -/
def calledMethods : List ID :=
  ["initialize", "assign_defaults", "name_to_accessors", "send", "hash", "get_value",
    "get_set_field", "instance_variable_get", "struct_fields"]

/-- No field of a class stands before one of them. -/
def Unshadowed (sch : Schema) : Prop :=
  ∀ klass, ∀ c ∈ sch.findClass klass, ∀ m ∈ calledMethods, m ∉ c.fieldNames

theorem Unshadowed.makes (h : Unshadowed sch) (klass : VALUE) : Makes sch klass := by
  intro c hc
  have hnot : ∀ m ∈ calledMethods, m ∉ c.fieldNames := h klass c hc
  unfold MakesBare
  split
  · exact hnot _ (by decide)
  · exact .inr (.inr ⟨hnot _ (by decide), hnot _ (by decide), hnot _ (by decide)⟩)

theorem Unshadowed.newIvars_struct (h : Unshadowed sch) {klass : VALUE}
    (hcached : sch.Cached klass) (hstruct : sch.isUnion klass = false) :
    newIvars sch klass = defaultIvars (sch.defaultValues klass) := by
  obtain ⟨c, hc, -, hisUnion, hdefaults⟩ := sch.classes klass hcached
  have hinherits : c.inheritsUnion = false := hisUnion.symm.trans hstruct
  have hinit : "initialize" ∉ c.fieldNames := h klass c hc _ (by decide)
  unfold newIvars
  rw [hc, hdefaults]
  dsimp only [Option.elim]
  unfold bareIvars
  rw [if_neg (by simp [hinherits, hinit])]

theorem newIvars_union {klass : VALUE} {fields : FieldInfoMap}
    (h : sch.fieldInfoMap klass = some fields) (hunion : sch.isUnion klass = true) :
    newIvars sch klass = [] := by
  obtain ⟨c, hc, -, hisUnion, -⟩ := sch.classes klass (by rw [h]; rfl)
  have hinherits : c.inheritsUnion = true := hisUnion.symm.trans hunion
  unfold newIvars
  rw [hc]
  exact if_pos (.inl hinherits)

end Schema

end Sparsam.ObjectMethods
