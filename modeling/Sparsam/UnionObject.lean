import Sparsam.Loading
import Sparsam.SerializerRead
import Sparsam.BinaryProtocol

set_option autoImplicit false

/-!
# Union objects

`Sparsam::Union` keeps the name of its set field in `@setfield` and the value
in an instance variable of that name. A union of which no field stands before a
method that the others call holds what was last assigned or decoded.
-/
namespace Sparsam.UnionObject
open WireProtocol RubyRuntime FieldInfoCache ExceptionState ObjectMethods Loading SerializerWrite
open SerializerRead BinaryProtocol

/-- The tag's own name, and the methods that the methods above call or are. -/
def ownNames : List ID :=
  ["setfield", "struct_fields", "initialize", "name_to_accessors", "send", "get_value",
    "instance_variable_get", "instance_variable_set", "remove_instance_variable"]

/-- No field stands before a method that the others call, and none is called `setfield`. -/
def NoShadowing (c : RubyClass) : Prop := ∀ name ∈ ownNames, name ∉ c.fieldNames

instance (c : RubyClass) : Decidable (NoShadowing c) := by
  unfold NoShadowing
  infer_instance

def ivarsOf : Option (ID × Value) → Ivars
  | none => []
  | some (f, v) => [("@setfield", .sym f), ("@" ++ f, v)]

section Runs
variable {c : RubyClass} {toS : Value → ID}

theorem selfCall_eq {α : Type} (h : NoShadowing c) {method : ID} (hown : method ∈ ownNames)
    (given : ℕ) (body : Method α) : selfCall c method given body = body :=
  if_neg (h method hown)

theorem ne_setfield (h : NoShadowing c) {f : ID} (hf : f ∈ c.fieldNames) : f ≠ "setfield" := by
  rintro rfl
  exact h "setfield" (by decide) hf

theorem ivar_ne {f g : ID} (h : f ≠ g) : "@" ++ f ≠ "@" ++ g :=
  fun heq => h ((String.append_right_inj _).mp heq)

theorem ivar_ne_setfield (h : NoShadowing c) {f : ID} (hf : f ∈ c.fieldNames) :
    "@" ++ f ≠ "@setfield" := ivar_ne (ne_setfield h hf)

theorem setfield_ivarsOf (last : Option (ID × Value)) :
    ivarGet (ivarsOf last) "@setfield" = (last.elim .nil fun l => .sym l.1) := by
  cases last <;> simp [ivarsOf, ivarGet]

theorem writer_ivarsOf (h : NoShadowing c) {f : ID} {v : Value} (hf : f ∈ c.fieldNames)
    {last : Option (ID × Value)} (hlast : ∀ l ∈ last, l.1 ∈ c.fieldNames) :
    writer c toS f v (ivarsOf last) = .ok () (ivarsOf (some (f, v))) := by
  have hset := ivar_ne_setfield h hf
  have hremove := @selfCall_eq c Unit h "remove_instance_variable" (by decide)
  have hwrite := @selfCall_eq c Unit h "instance_variable_set" (by decide)
  simp only [writer, hremove, hwrite]
  cases last with
  | none =>
    change EStateM.Result.ok () (ivarSet (ivarSet [] "@setfield" (.sym f)) ("@" ++ f) v) = _
    simp [ivarSet, ivarsOf, hset.symm]
  | some l =>
    obtain ⟨g, w⟩ := l
    have hg := ivar_ne_setfield h (hlast (g, w) rfl)
    have hgone : removeInstanceVariable ("@" ++ g) (ivarsOf (some (g, w))) =
        .ok () [("@setfield", .sym g)] := by
      unfold removeInstanceVariable ivarsOf
      simp [hg, hg.symm]
    have hrest : (do
        removeInstanceVariable ("@" ++ g)
        modify fun ivars => ivarSet ivars "@setfield" (.sym f)
        modify fun ivars => ivarSet ivars ("@" ++ f) v : Method Unit) (ivarsOf (some (g, w))) =
          .ok () (ivarSet (ivarSet [("@setfield", .sym g)] "@setfield" (.sym f)) ("@" ++ f) v) := by
      change EStateM.bind (removeInstanceVariable ("@" ++ g)) _ (ivarsOf (some (g, w))) = _
      unfold EStateM.bind
      rw [hgone]
      rfl
    refine hrest.trans ?_
    simp [ivarSet, ivarsOf, hset.symm]

theorem reader_ivarsOf (h : NoShadowing c) {g : ID} (hg : g ∈ c.fieldNames)
    (last : Option (ID × Value)) :
    reader c g (ivarsOf last) =
      match last with
      | some (f, v) =>
        if g = f then .ok v (ivarsOf last)
        else .error (.UnionException (g ++ " is not union's set field")) (ivarsOf last)
      | none => .error (.UnionException (g ++ " is not union's set field")) (ivarsOf last) := by
  have hfields : g ≠ "struct_fields" := by
    rintro rfl
    exact h "struct_fields" (by decide) hg
  have hget := @selfCall_eq c Value h "instance_variable_get" (by decide)
  unfold reader
  rw [if_neg hfields]
  simp only [hget]
  cases last with
  | none => rfl
  | some l =>
    obtain ⟨f, v⟩ := l
    have hset := ivar_ne_setfield h hg
    by_cases hgf : g = f
    · subst hgf
      change (if isSym g (.sym g) = true then _ else _ : Method Value) _ = _
      simp only [isSym, beq_self_eq_true, if_true]
      change EStateM.Result.ok (ivarGet (ivarsOf (some (g, v))) ("@" ++ g)) _ = _
      simp [ivarsOf, ivarGet, hset.symm]
    · change (if isSym g (.sym f) = true then _ else _ : Method Value) _ = _
      have hsym : isSym g (.sym f) = false := by simpa [isSym] using Ne.symm hgf
      rw [hsym]
      simp only [if_neg hgf]
      rfl

theorem getValue_ivarsOf (h : NoShadowing c) {last : Option (ID × Value)}
    (hlast : ∀ l ∈ last, l.1 ∈ c.fieldNames) :
    getValue c (ivarsOf last) = .ok (last.elim .nil Prod.snd) (ivarsOf last) := by
  have hfields := @selfCall_eq c (Option ID) h "name_to_accessors" (by decide)
  have hsend := @selfCall_eq c Value h "send" (by decide)
  unfold getValue
  rw [if_neg (h "get_value" (by decide))]
  simp only [hfields, hsend]
  cases last with
  | none => rfl
  | some l =>
    obtain ⟨f, v⟩ := l
    have hf := hlast (f, v) rfl
    have hsyms : fieldSyms c (.sym f) = some f := if_pos hf
    have hset : ivarGet (ivarsOf (some (f, v))) "@setfield" = .sym f := rfl
    have hread : reader c f (ivarsOf (some (f, v))) = .ok v (ivarsOf (some (f, v))) :=
      (reader_ivarsOf h hf _).trans (if_pos rfl)
    have hget : (get : Method Ivars) (ivarsOf (some (f, v))) =
        .ok (ivarsOf (some (f, v))) (ivarsOf (some (f, v))) := rfl
    simp only [bind, EStateM.bind, hget, hset, hsyms, pure]
    exact hread

/-- The field that a name stands for, with the value given for it. -/
def namedField (c : RubyClass) (name value : Value) : Option (ID × Value) :=
  if rtest name then (fieldSyms c name).map fun f => (f, value) else none

/-- The same for the arguments of a constructor, where the name may be a Hash. -/
def constructorField (c : RubyClass) (name value : Value) : Option (ID × Value) :=
  match name with
  | .hash es => es.head?.bind fun e => namedField c e.1 e.2
  | name => namedField c name value

/-- The field and the value that the arguments of a constructor name. -/
def assignedByNew (c : RubyClass) : List Value → Option (ID × Value)
  | [] => none
  | [name] => constructorField c name .nil
  | name :: value :: _ => constructorField c name value

theorem mem_of_fieldSyms {name : Value} {f : ID} (h : fieldSyms c name = some f) :
    f ∈ c.fieldNames := by
  unfold fieldSyms at h
  split at h
  · split at h
    · rename_i hmem
      exact Option.some.inj h ▸ hmem
    · cases h
  · split at h
    · rename_i hmem
      exact Option.some.inj h ▸ hmem
    · cases h
  · cases h

theorem mem_of_namedField {name value : Value} {l : ID × Value}
    (h : namedField c name value = some l) : l.1 ∈ c.fieldNames := by
  unfold namedField at h
  split at h
  · obtain ⟨f, hf, rfl⟩ := Option.map_eq_some_iff.mp h
    exact mem_of_fieldSyms hf
  · cases h

theorem initializeWith_ok (h : NoShadowing c) {name value n v : Value} {iv : Ivars}
    (hargs : constructorArgs c name value [] = .ok (n, v) [])
    (hok : initializeWith c toS name value [] = .ok () iv) : iv = ivarsOf (namedField c n v) := by
  have hfields := @selfCall_eq c (Option ID) h "name_to_accessors" (by decide)
  have hsend := @selfCall_eq c Unit h "send" (by decide)
  simp only [initializeWith, hfields, hsend] at hok
  change EStateM.bind (constructorArgs c name value) _ [] = _ at hok
  unfold EStateM.bind at hok
  rw [hargs] at hok
  unfold namedField
  by_cases hn : rtest n = true
  · rw [if_pos hn]
    simp only [hn, if_true] at hok
    cases hf : fieldSyms c n with
    | none =>
      rw [hf] at hok
      cases hok
    | some f =>
      rw [hf] at hok
      change writer c toS f v (ivarsOf none) = _ at hok
      rw [writer_ivarsOf h (mem_of_fieldSyms hf) (by simp)] at hok
      exact (EStateM.Result.ok.inj hok).2.symm
  · rw [if_neg hn]
    simp only [hn] at hok
    exact (EStateM.Result.ok.inj hok).2.symm

theorem initializeWith_constructorField (h : NoShadowing c) {name value : Value} {iv : Ivars}
    (hok : initializeWith c toS name value [] = .ok () iv) :
    iv = ivarsOf (constructorField c name value) := by
  cases name with
  | hash es =>
    match es with
    | [] => exact initializeWith_ok h (n := .nil) (v := .nil) rfl hok
    | [e] => exact initializeWith_ok h (n := e.1) (v := e.2) rfl hok
    | e :: e' :: es => cases hok
  | _ => exact initializeWith_ok h rfl hok

theorem newObject_ok (h : NoShadowing c) {args : List Value} {iv : Ivars}
    (hok : newObject c toS args = .ok () iv) : iv = ivarsOf (assignedByNew c args) := by
  unfold newObject initializeObject at hok
  rw [if_neg (h "initialize" (by decide))] at hok
  match args with
  | [] => exact initializeWith_constructorField h hok
  | [name] => exact initializeWith_constructorField h hok
  | [name, value] => exact initializeWith_constructorField h hok
  | name :: value :: other :: rest => cases hok

theorem mem_of_assignedByNew {args : List Value} {l : ID × Value}
    (h : assignedByNew c args = some l) : l.1 ∈ c.fieldNames := by
  have hfield : ∀ name value, constructorField c name value = some l → l.1 ∈ c.fieldNames := by
    intro name value h
    unfold constructorField at h
    split at h
    · obtain ⟨e, -, he⟩ := Option.bind_eq_some_iff.mp h
      exact mem_of_namedField he
    · exact mem_of_namedField h
  rcases args with _ | ⟨name, _ | ⟨value, rest⟩⟩
  · cases h
  · exact hfield _ _ h
  · exact hfield _ _ h

end Runs

section Decoded
variable {σ : Type} (P : TProtocol σ) (sch : Schema)

/-- The object that `readUnion` makes, and the field and value it decodes for it. -/
def readUnionPayload (n : ℕ) (klass : VALUE) : Reader σ (Instance × Option (ID × Value)) := do
  let ret ← newInstance sch klass
  let fields ← findFieldInfoMap sch klass
  let (ftype, fid) ← protocol P.readFieldBegin
  if ftype = .STOP then pure (ret, none)
  else
    match fields.find? fid with
    | none => do
      protocol (P.skip ftype)
      protocol P.readFieldEnd
      pure (ret, none)
    | some fi => do
      record (.header .member ftype fi)
      let rbValue ← readAny P sch n .member ftype fi
      protocol P.readFieldEnd
      let (ftype', _) ← protocol P.readFieldBegin
      if ftype' ≠ .STOP then
        throw (.raised .UnionException "More than one element in union." none none)
      else pure (ret, if rbValue.isNil then none else some (fi.symName, rbValue))

def withPayload (ret : Instance) : Option (ID × Value) → Instance
  | none => ret
  | some (f, v) => (ret.set "@setfield" (.sym f)).set ("@" ++ f) v

variable {P sch}

theorem readUnion_eq (n : ℕ) (klass : VALUE) : readUnion P sch (n + 1) klass = (do
    let r ← readUnionPayload P sch n klass
    pure (withPayload r.1 r.2).toValue) := by
  unfold readUnion readUnionPayload
  cases hfields : sch.fieldInfoMap klass with
  | none =>
    rw [newInstance_none sch hfields]
    rfl
  | some fields =>
    have hfind : (findFieldInfoMap sch klass : Reader σ FieldInfoMap) = pure fields := by
      unfold findFieldInfoMap
      rw [hfields]
    simp only [hfind, pure_bind, bind_assoc]
    refine bind_congr fun ret => bind_congr fun p => ?_
    split
    · rfl
    · cases hfi : fields.find? p.2 with
      | none => simp only [bind_assoc, pure_bind]; rfl
      | some fi =>
        have hmem := (fields.find?_eq_some_iff p.2 fi).mp hfi
        have hivar : fi.ivarName = "@" ++ fi.symName := sch.ivarName klass fields hfields _ hmem
        simp only [bind_assoc]
        refine bind_congr fun _ => bind_congr fun v => bind_congr fun _ => bind_congr fun q => ?_
        split
        · rfl
        · rw [pure_bind, hivar]
          cases v.isNil <;> rfl

def PayloadOf (sch : Schema) (klass : VALUE) (r : Instance × Option (ID × Value)) : Prop :=
  r.1.klass = klass ∧ r.1.ivars = [] ∧ ∀ l ∈ r.2, ∃ fields, sch.fieldInfoMap klass = some fields ∧
    ∃ e ∈ fields.entries, e.2.symName = l.1

theorem under_any {α : Type} (x : Reader σ α) :
    Under (fun _ => True) x (fun _ => True) := fun _ =>
  Spec.intro (fun _ _ _ _ => ⟨trivial, trivial⟩) fun _ _ _ => trivial

theorem readUnionPayload_under (n : ℕ) {klass : VALUE} (hunion : sch.isUnion klass = true) :
    Under (fun _ => True) (readUnionPayload P sch n klass) (PayloadOf sch klass) := by
  unfold readUnionPayload
  cases hfields : sch.fieldInfoMap klass with
  | none =>
    rw [newInstance_none sch hfields]
    exact fun s => Spec.bind (Spec.throw trivial)
  | some fields =>
    have hnew : Under (fun _ => True) (newInstance sch klass : Reader σ Instance)
        fun ret => ret.klass = klass ∧ ret.ivars = [] := by
      by_cases hmakes : Makes sch klass
      · rw [newInstance_makes sch hfields hmakes]
        exact (under_any _).bind fun _ => (under_any _).bind fun oid =>
          Under.pure fun _ _ => ⟨rfl, newIvars_union hfields hunion⟩
      · obtain ⟨e, -, hraises⟩ := newInstance_raises sch hfields hmakes
        rw [hraises]
        exact (under_any _).bind fun _ => (under_any _).bind fun _ => Under.throw _ _
    have hfind : (findFieldInfoMap sch klass : Reader σ FieldInfoMap) = pure fields := by
      unfold findFieldInfoMap
      rw [hfields]
    refine hnew.bind fun ret => ?_
    rw [hfind, pure_bind]
    refine (under_any _).bind fun p => ?_
    obtain ⟨ftype, fid⟩ := p
    dsimp only
    split
    · exact Under.pure fun _ hret => ⟨hret.1, hret.2, by simp⟩
    · cases hfi : fields.find? fid with
      | none =>
        exact (under_any _).bind fun _ => (under_any _).bind fun _ =>
          Under.pure fun _ _ _ hret => ⟨hret.1, hret.2, by simp⟩
      | some fi =>
        refine (under_any _).bind fun _ => (under_any _).bind fun v => (under_any _).bind fun _ =>
          (under_any _).bind fun q => ?_
        obtain ⟨ftype', fid'⟩ := q
        dsimp only
        split
        · exact Under.throw _ _
        · refine Under.pure fun _ _ _ _ _ hret => ⟨hret.1, hret.2, fun l hl => ?_⟩
          dsimp only at hl
          split at hl
          · cases hl
          · obtain rfl := Option.some.inj hl
            exact ⟨fields, hfields, (fid, fi), (fields.find?_eq_some_iff fid fi).mp hfi, rfl⟩

end Decoded

/-- A union object of a loaded program and what was last assigned to it: one that
    `new` made, or `readUnion`, and any assignments since then, whether they
    returned or raised. -/
inductive Run {σ : Type} (P : TProtocol σ) (p : Program) (klass : VALUE) (c : RubyClass)
    (toS : Value → ID) : Option (ID × Value) → Ivars → Prop where
  | new {args : List Value} {ivars : Ivars} (h : newObject c toS args = .ok () ivars) :
      Run P p klass c toS (assignedByNew c args) ivars
  | decoded {n oid : ℕ} {st st' st'' : RState σ} {ret : Instance} {last : Option (ID × Value)}
      {ivars : Ivars} (h : readUnion P p.schema n klass st = .ok (.obj oid klass false ivars) st')
      (hlast : readUnionPayload P p.schema (n - 1) klass st = .ok (ret, last) st'') :
      Run P p klass c toS last ivars
  | returned {last : Option (ID × Value)} {ivars ivars' : Ivars} {f : ID} {v : Value}
      (h : Run P p klass c toS last ivars) (hf : f ∈ c.fieldNames)
      (hwrite : writer c toS f v ivars = .ok () ivars') :
      Run P p klass c toS (some (f, v)) ivars'
  | raised {last : Option (ID × Value)} {ivars ivars' : Ivars} {f : ID} {v : Value}
      {e : MethodError} (h : Run P p klass c toS last ivars) (hf : f ∈ c.fieldNames)
      (hwrite : writer c toS f v ivars = .error e ivars') :
      Run P p klass c toS (some (f, v)) ivars'

/-- The object holds this field and value and nothing else, and shows it. -/
structure Holds (c : RubyClass) (ivars : Ivars) (last : Option (ID × Value)) : Prop where
  declared : ∀ l ∈ last, l.1 ∈ c.fieldNames
  setfield : ivarGet ivars "@setfield" = last.elim .nil fun l => .sym l.1
  payload : ∀ g ∈ c.fieldNames, ∀ w, ("@" ++ g, w) ∈ ivars ↔ last = some (g, w)
  reads : ∀ f v, last = some (f, v) → reader c f ivars = .ok v ivars
  others : ∀ g ∈ c.fieldNames, last.map Prod.fst ≠ some g →
    reader c g ivars = .error (.UnionException (g ++ " is not union's set field")) ivars
  value : getValue c ivars = .ok (last.elim .nil Prod.snd) ivars

section Invariant
variable {σ : Type} {P : TProtocol σ} {p : Program} {klass : VALUE} {c : RubyClass}
variable {toS : Value → ID}

theorem holds_ivarsOf (h : NoShadowing c) {last : Option (ID × Value)}
    (hlast : ∀ l ∈ last, l.1 ∈ c.fieldNames) : Holds c (ivarsOf last) last := by
  refine ⟨hlast, setfield_ivarsOf last, fun g hg w => ?_, fun f v hfv => ?_, fun g hg hne => ?_,
    getValue_ivarsOf h hlast⟩
  · have hset := ivar_ne_setfield h hg
    cases last with
    | none => simp [ivarsOf]
    | some l =>
      obtain ⟨f, v⟩ := l
      unfold ivarsOf
      rw [List.mem_cons, List.mem_singleton, Prod.mk.injEq, Prod.mk.injEq]
      constructor
      · rintro (⟨heq, -⟩ | ⟨heq, hw⟩)
        · exact absurd heq hset
        · rw [(String.append_right_inj _).mp heq, hw]
      · intro heq
        obtain ⟨rfl, rfl⟩ := Prod.mk.inj (Option.some.inj heq)
        exact .inr ⟨rfl, rfl⟩
  · subst hfv
    rw [reader_ivarsOf h (hlast (f, v) rfl)]
    exact if_pos rfl
  · rw [reader_ivarsOf h hg]
    cases last with
    | none => rfl
    | some l =>
      obtain ⟨f, v⟩ := l
      have hgf : g ≠ f := fun heq => hne (congrArg some heq.symm)
      exact if_neg hgf

theorem mem_fieldNames (hclass : p.findClass klass = some c) {fields : FieldInfoMap}
    (hfields : p.schema.fieldInfoMap klass = some fields) {e : Int16 × FieldInfo}
    (he : e ∈ fields.entries) : e.2.symName ∈ c.fieldNames := by
  rw [schema_fields p hclass] at hfields
  obtain ⟨d, hd, -, -, -, hinfo⟩ := createFieldInfoMap_mem hfields e he
  rw [createFieldInfo_symName hinfo]
  exact List.mem_map_of_mem hd

theorem run_ivarsOf (hclass : p.findClass klass = some c) (hunion : c.inheritsUnion = true)
    (h : NoShadowing c) {last : Option (ID × Value)} {ivars : Ivars}
    (hrun : Run P p klass c toS last ivars) :
    ivars = ivarsOf last ∧ ∀ l ∈ last, l.1 ∈ c.fieldNames := by
  induction hrun with
  | new hnew => exact ⟨newObject_ok h hnew, fun l hl => mem_of_assignedByNew hl⟩
  | @decoded n oid st st' st'' ret last ivars hread hpayload =>
    have hclassUnion : p.schema.isUnion klass = true := (schema_isUnion p hclass).trans hunion
    have hspec := (readUnionPayload_under (n - 1) hclassUnion st).of_ok hpayload trivial
    obtain ⟨-, -, hempty, htable⟩ := hspec
    have hlast : ∀ l ∈ last, l.1 ∈ c.fieldNames := by
      intro l hl
      obtain ⟨fields, hfields, e, he, hname⟩ := htable l hl
      exact hname ▸ mem_fieldNames hclass hfields he
    refine ⟨?_, hlast⟩
    cases n with
    | zero => cases hread
    | succ n =>
      rw [readUnion_eq] at hread
      change EStateM.bind (readUnionPayload P p.schema n klass) _ st = _ at hread
      unfold EStateM.bind at hread
      change readUnionPayload P p.schema n klass st = _ at hpayload
      rw [hpayload] at hread
      have hvalue := (EStateM.Result.ok.inj hread).1
      have hivars : (withPayload ret last).ivars = ivars := by
        injection hvalue
      rw [← hivars]
      cases last with
      | none => exact hempty
      | some l =>
        have hset := ivar_ne_setfield h (hlast l rfl)
        have hnew : ret.ivars = [] := hempty
        unfold withPayload Instance.set
        simp [hnew, ivarSet, ivarsOf, hset.symm]
  | returned _ hf hwrite ih =>
    obtain ⟨rfl, hlast⟩ := ih
    rw [writer_ivarsOf h hf hlast] at hwrite
    refine ⟨(EStateM.Result.ok.inj hwrite).2.symm, fun l hl => ?_⟩
    obtain rfl := Option.some.inj hl
    exact hf
  | raised _ hf hwrite ih =>
    obtain ⟨rfl, hlast⟩ := ih
    rw [writer_ivarsOf h hf hlast] at hwrite
    cases hwrite

theorem forM_filter {σ ε α : Type} {w : α → EStateM ε σ Unit} {keep : α → Bool} {as : List α}
    (h : ∀ a ∈ as, keep a = false → w a = pure ()) :
    as.forM w = (as.filter keep).forM w := by
  induction as with
  | nil => rfl
  | cons a as ih =>
    have hrest := ih fun b hb => h b (by simp [hb])
    change (do w a; as.forM w) = _
    rw [hrest]
    cases hkeep : keep a with
    | true =>
      rw [List.filter_cons_of_pos hkeep]
      rfl
    | false =>
      rw [List.filter_cons_of_neg (by simp [hkeep]), h a (by simp) hkeep, pure_bind]

theorem length_filter_le_one {α : Type} {name : α → String} {as : List α}
    (h : (as.map name).Nodup) (f : String) :
    (as.filter fun a => decide (name a = f)).length ≤ 1 := by
  have hcount := List.nodup_iff_count_le_one.mp h f
  rw [List.count, List.countP_map, List.countP_eq_length_filter] at hcount
  exact hcount

/-- The keys of `FIELDS` are ids of 16 bits. -/
def IdsFit (c : RubyClass) : Prop :=
  ∀ d ∈ c.fields, ∀ k, fix2int d.1 = some k → (Int16.ofInt k).toInt = k

/-- The loop of `writeStruct` writes at most the one field, under the id that `FIELDS`
    has for it. -/
def WritesOnly (p : Program) (klass : VALUE) (c : RubyClass) (data : RClass) (ivars : Ivars)
    (last : Option (ID × Value)) : Prop :=
  ∃ (fields : FieldInfoMap) (es : List (Int16 × FieldInfo)),
    p.schema.fieldInfoMap klass = some fields ∧ es.length ≤ 1 ∧
    (∀ e ∈ es, ∃ d ∈ c.fields, ∃ v, fix2int d.1 = some e.1.toInt ∧
      last = some (fieldDefName d.2, v) ∧ createFieldInfo d.2 = some e.2) ∧
    writeStruct p.schema klass data ivars = (do
      checkRequiredFields p.schema klass ivars fields.entries
      es.forM fun e => writeIvar p.schema data e ivars)

theorem writesOnly_ivarsOf (hclass : p.findClass klass = some c) (h : NoShadowing c)
    (hids : IdsFit c) (data : RClass) (last : Option (ID × Value)) :
    WritesOnly p klass c data (ivarsOf last) last := by
  have hmem : (klass, c) ∈ p.defs := SortedMap.mem_of_lookup hclass
  have hcached := (schema_cached_iff p klass).mpr (List.mem_map_of_mem hmem)
  obtain ⟨fields, hfields⟩ := Option.isSome_iff_exists.mp hcached
  let names (e : Int16 × FieldInfo) : Bool := decide (some e.2.symName = last.map Prod.fst)
  refine ⟨fields, fields.entries.filter names, hfields, ?_, ?_, ?_⟩
  · cases last with
    | none => simp [names]
    | some l =>
      have hle := length_filter_le_one (p.schema.names klass fields hfields) l.1
      simpa [names] using hle
  · intro e he
    obtain ⟨he, hname⟩ := List.mem_filter.mp he
    rw [schema_fields p hclass] at hfields
    obtain ⟨d, hd, k, hk, hid, hinfo⟩ := createFieldInfoMap_mem hfields e he
    have hname : some e.2.symName = last.map Prod.fst := by simpa [names] using hname
    cases last with
    | none => cases hname
    | some l =>
      obtain ⟨f, v⟩ := l
      have hfit : e.1.toInt = k := hid ▸ hids d hd k hk
      refine ⟨d, hd, v, hfit.symm ▸ hk, ?_, hinfo⟩
      rw [← createFieldInfo_symName hinfo, Option.some.inj hname]
  · unfold writeStruct writeStructWith
    rw [hfields]
    dsimp only
    have hwrite : ∀ e ∈ fields.entries, names e = false →
        writeIvar p.schema data e (ivarsOf last) = pure () := by
      intro e he hname
      have hset := ivar_ne_setfield h (mem_fieldNames hclass hfields he)
      have hivar := p.schema.ivarName klass fields hfields e he
      cases last with
      | none =>
        unfold ivarsOf writeIvar
        rfl
      | some l =>
        obtain ⟨f, v⟩ := l
        have hne : "@" ++ f ≠ e.2.ivarName := by
          rw [hivar]
          refine ivar_ne fun heq => ?_
          simp [names, heq] at hname
        have htag : "@setfield" ≠ e.2.ivarName := hivar ▸ hset.symm
        unfold ivarsOf
        simp only [writeIvar, if_neg htag, if_neg hne]
    rw [forM_filter hwrite]

end Invariant

def setfieldClasses : ClassDefs :=
  [(8, ⟨"Tagged", .union, [(.int 1, fieldDef .I32 "setfield" [optional])]⟩)]

def setfieldProgram : Program where
  defs := setfieldClasses
  globals := (loadClasses setfieldClasses).get (by decide +kernel)
  loads := (Option.some_get _).symm
  loaded := by decide +kernel

end Sparsam.UnionObject
