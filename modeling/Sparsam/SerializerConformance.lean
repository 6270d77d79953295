import Sparsam.BinaryProtocol
import Sparsam.DecoderTyping

set_option autoImplicit false

/-!
# What serialize accepts

`Conforms` says which objects a schema admits, `checks` lists the conditions in
the order the writer meets them, each with the exception for it. The writer
returns exactly on conforming objects and raises for the first condition that
fails.
-/
namespace Sparsam.SerializerConformance
open WireProtocol RubyRuntime FieldInfoCache ExceptionState SerializerWrite
open DecoderCalls DecoderTyping

/-- A value the schema admits: of its declared type, required fields set, at every depth. -/
inductive Conforms (sch : Schema) : FieldInfo → Value → Prop
  | int (fi : FieldInfo) (n : ℤ) (range : inWidth fi.ftype n = true) : Conforms sch fi (.int n)
  | bool (fi : FieldInfo) (b : Bool) (type : fi.ftype = .BOOL) : Conforms sch fi (.bool b)
  | double (fi : FieldInfo) (bits : UInt64) (type : fi.ftype = .DOUBLE) :
      Conforms sch fi (.float bits)
  | string (fi : FieldInfo) (enc : Encoding) (bytes : List UInt8) (type : fi.ftype = .STRING) :
      Conforms sch fi (.str enc bytes)
  | list (fi e : FieldInfo) (xs : List Value) (type : fi.ftype = .LIST)
      (element : fi.elementType = some e) (elems : ∀ x ∈ xs, Conforms sch e x) :
      Conforms sch fi (.ary xs)
  | set (fi e : FieldInfo) (xs : List Value) (type : fi.ftype = .SET)
      (element : fi.elementType = some e) (elems : ∀ x ∈ xs, Conforms sch e x) :
      Conforms sch fi (.set xs)
  | map (fi k e : FieldInfo) (kvs : List (Value × Value)) (type : fi.ftype = .MAP)
      (key : fi.keyType = some k) (element : fi.elementType = some e)
      (keys : ∀ kv ∈ kvs, Conforms sch k kv.1) (values : ∀ kv ∈ kvs, Conforms sch e kv.2) :
      Conforms sch fi (.hash kvs)
  | struct (fi : FieldInfo) (oid : ℕ) (eigen : Bool) (ivars : List (ID × Value))
      (fields : FieldInfoMap) (type : fi.ftype = .STRUCT)
      (table : sch.fieldInfoMap fi.klass = some fields)
      (required : ∀ e ∈ fields.entries, e.2.isOptional = false →
        ivarGet ivars e.2.ivarName ≠ .nil)
      (held : ∀ e ∈ fields.entries, ivarGet ivars e.2.ivarName ≠ .nil →
        Conforms sch e.2 (ivarGet ivars e.2.ivarName)) :
      Conforms sch fi (.obj oid fi.klass eigen ivars)

abbrev Check := ExcClass × Bool

def firstFailing (cs : List Check) : Option ExcClass := (cs.find? fun c => !c.2).map Prod.fst

section Checks
variable (sch : Schema)

def intChecks (ttype : TType) : Value → List Check
  | .int n => [(.TypeMismatch, true), (.RangeError, inWidth ttype n)]
  | _ => [(.TypeMismatch, false)]

def requiredChecks (ivars : List (ID × Value)) (entries : List (Int16 × FieldInfo)) : List Check :=
  entries.map fun e =>
    (.MissingMandatory, e.2.isOptional || !(ivarGet ivars e.2.ivarName).isNil)

mutual
/-- The conditions on a value, in the order they are met. -/
def checks (fi : FieldInfo) : Value → List Check := fun v =>
  match fi.ftype with
  | .I16 | .I32 | .I64 | .BYTE => intChecks fi.ftype v
  | .BOOL => [(.TypeMismatch, match v with | .bool _ => true | _ => false)]
  | .DOUBLE => [(.TypeMismatch, match v with | .float _ => true | _ => false)]
  | .STRING => [(.TypeMismatch, match v with | .str _ _ => true | _ => false)]
  | .LIST =>
    match v with
    | .ary xs => (.TypeMismatch, true) :: elemChecks fi.elementType xs
    | _ => [(.TypeMismatch, false)]
  | .SET =>
    match v with
    | .set xs => (.TypeMismatch, true) :: elemChecks fi.elementType xs
    | _ => [(.TypeMismatch, false)]
  | .MAP =>
    match v with
    | .hash kvs => (.TypeMismatch, true) :: entryChecks fi.keyType fi.elementType kvs
    | _ => [(.TypeMismatch, false)]
  | .STRUCT =>
    match v with
    | .obj _ klass _ ivars =>
      (.TypeMismatch, klass == fi.klass) ::
        match sch.fieldInfoMap fi.klass with
        | some fields => requiredChecks ivars fields.entries ++
            fields.entries.flatMap fun e => ivarChecks e.2 ivars
        | none => []
    | _ => [(.TypeMismatch, false)]
  | _ => []

def elemChecks (e : Option FieldInfo) : List Value → List Check
  | [] => []
  | x :: xs => (match e with | some e => checks e x | none => []) ++ elemChecks e xs

def entryChecks (k e : Option FieldInfo) : List (Value × Value) → List Check
  | [] => []
  | (x, y) :: kvs =>
    (match k with | some k => checks k x | none => []) ++
      ((match e with | some e => checks e y | none => []) ++ entryChecks k e kvs)

/-- A field is checked unless it is nil. -/
def ivarChecks (e : FieldInfo) : List (ID × Value) → List Check
  | [] => []
  | (name, v) :: rest =>
    if name = e.ivarName then if v.isNil then [] else checks e v else ivarChecks e rest
end

attribute [local simp] checks elemChecks entryChecks ivarChecks

end Checks

/-- The writer raises for the first failing check, or returns when there is none. -/
def Decides {α : Type} (cs : List Check) (x : Writer α) : Prop :=
  ∀ out, Spec x out (fun _ _ => firstFailing cs = none)
    (fun e _ => e.isRaise = true ∧ e.cls = firstFailing cs ∧ firstFailing cs ≠ none)

theorem firstFailing_append (cs ds : List Check) :
    firstFailing (cs ++ ds) = (firstFailing cs).or (firstFailing ds) := by
  simp only [firstFailing, List.find?_append]
  cases cs.find? fun c => !c.2 <;> simp

theorem firstFailing_cons (k : ExcClass) (b : Bool) (cs : List Check) :
    firstFailing ((k, b) :: cs) = if b then firstFailing cs else some k := by
  cases b <;> simp [firstFailing]

section Decides
variable {α β : Type} {cs ds : List Check}

theorem Decides.pure (a : α) : Decides [] (Pure.pure a : Writer α) := fun _ => Spec.pure rfl

theorem decides_emit (tok : Token) : Decides [] (emit tok) := fun _ => rfl

theorem Decides.bind {x : Writer α} {f : α → Writer β} (hx : Decides cs x)
    (hf : ∀ a, Decides ds (f a)) : Decides (cs ++ ds) (x >>= f) := by
  intro out
  rw [firstFailing_append]
  refine Spec.bind ((hx out).mono (fun a t ha => ?_) fun e t he => ?_)
  · simpa only [ha, Option.none_or] using hf a t
  · obtain ⟨hr, hc, hn⟩ := he
    cases hfail : firstFailing cs with
    | none => exact absurd hfail hn
    | some k => exact ⟨hr, by simp [hc, hfail], by simp⟩

theorem Decides.after_emit {x : Writer β} (tok : Token) (hx : Decides ds x) :
    Decides ds (do emit tok; x) :=
  (decides_emit tok).bind fun _ => hx

theorem Decides.raise {e : Err} {k : ExcClass} (hr : e.isRaise = true) (hc : e.cls = some k)
    (h : firstFailing cs = some k) : Decides cs (throw e : Writer α) :=
  fun _ => Spec.throw ⟨hr, hc.trans h.symm, by simp [h]⟩

theorem Decides.congr {x : Writer α} (hx : Decides cs x) (h : firstFailing cs = firstFailing ds) :
    Decides ds x := by
  intro out
  rw [← h]
  exact hx out

theorem Decides.emit {x : Writer α} {g : α → Token} (hx : Decides cs x) :
    Decides cs (do SerializerWrite.emit (g (← x))) := by
  have h := hx.bind fun a => decides_emit (g a)
  rwa [List.append_nil] at h

theorem decides_mismatch (sch : Schema) (outer : RClass) (fieldSym expected : String)
    (actual : Value) (cs : List Check) :
    Decides ((.TypeMismatch, false) :: cs)
      (raiseTypeMismatch sch outer fieldSym expected actual : Writer α) :=
  Decides.raise rfl rfl (by simp [firstFailing])

end Decides

section Numbers

theorem decides_range {α : Type} {c : Prop} [Decidable c] {b : Bool} (hb : b = decide c) (a : α)
    (msg : String) :
    Decides [(.RangeError, b)] (if c then Pure.pure a else rangeError msg : Writer α) := by
  subst hb
  split_ifs with h
  · exact fun _ => Spec.pure (by simp [firstFailing, h])
  · exact Decides.raise rfl rfl (by simp [firstFailing, h])

theorem decides_byteConvert (n : ℤ) :
    Decides [(.RangeError, inWidth .BYTE n)] (byteConvert n) := by
  unfold byteConvert
  by_cases h : -2 ^ 15 ≤ n ∧ n < 2 ^ 15
  · have hs : shortConvert n = Pure.pure (Int16.ofInt n) := by rw [shortConvert, if_pos h]
    rw [hs, pure_bind, Int16.toInt_ofInt_of_le h.1 h.2]
    refine decides_range ?_ _ _
    rw [inWidth, decide_eq_decide]
    omega
  · have hw : inWidth .BYTE n = false := by
      rw [inWidth, decide_eq_false_iff_not]
      omega
    have hs : shortConvert n =
        rangeError ("integer " ++ toString n ++ " out of range of short") := by
      rw [shortConvert, if_neg h]
    rw [hs, hw]
    exact fun _ => Spec.bind (Spec.throw ⟨rfl, rfl, by simp [firstFailing]⟩)

variable (sch : Schema) (outer : RClass) (fieldSym : ID)

theorem decides_convertFixnum {α : Type} {convert : ℤ → Writer α} {intended : TType}
    (hconvert : ∀ n, Decides [(.RangeError, inWidth intended n)] (convert n))
    (hbig : ∀ n, fixnum n = false → inWidth intended n = false) (v : Value) :
    Decides (intChecks intended v) (convertFixnum sch outer fieldSym convert intended v) := by
  cases v with
  | int n =>
    unfold convertFixnum
    refine Decides.congr (?_ : Decides [(.RangeError, inWidth intended n)] _)
      (by simp [intChecks, firstFailing_cons])
    cases hf : fixnum n with
    | true => simpa [hf] using hconvert n
    | false =>
      rw [hbig n hf]
      simp only [hf, Bool.false_eq_true, ↓reduceIte]
      exact Decides.raise rfl rfl (by simp [firstFailing])
  | _ => exact decides_mismatch sch outer fieldSym _ _ []

theorem decides_convertI64 (v : Value) :
    Decides (intChecks .I64 v) (convertI64 sch outer fieldSym v) := by
  cases v with
  | int n =>
    unfold convertI64
    refine Decides.congr (?_ : Decides [(.RangeError, inWidth .I64 n)] _)
      (by simp [intChecks, firstFailing_cons])
    by_cases hf : fixnum n = true
    · have hw : inWidth .I64 n = true := by
        simp only [fixnum, decide_eq_true_eq] at hf
        rw [inWidth, decide_eq_true_eq]
        omega
      rw [hw]
      simp only [hf]
      exact fun _ => Spec.pure (by simp [firstFailing])
    · simp only [hf]
      exact decides_range rfl _ _
  | _ => exact decides_mismatch sch outer fieldSym _ _ []

theorem decides_convertBool (v : Value) :
    Decides [(.TypeMismatch, match v with | .bool _ => true | _ => false)]
      (convertBool sch outer fieldSym v) := by
  cases v with
  | bool b => exact fun _ => Spec.pure rfl
  | _ => exact decides_mismatch sch outer fieldSym _ _ []

theorem decides_convertFloat (v : Value) :
    Decides [(.TypeMismatch, match v with | .float _ => true | _ => false)]
      (convertFloat sch outer fieldSym v) := by
  cases v with
  | float bits => exact fun _ => Spec.pure rfl
  | _ => exact decides_mismatch sch outer fieldSym _ _ []

end Numbers

section Structs
variable {sch : Schema}

theorem decides_checkRequiredFields (klass : VALUE) (ivars : List (ID × Value))
    (entries : List (Int16 × FieldInfo)) :
    Decides (requiredChecks ivars entries) (checkRequiredFields sch klass ivars entries) := by
  induction entries with
  | nil => exact Decides.pure ()
  | cons e rest ih =>
    rw [checkRequiredFields, requiredChecks, List.map_cons]
    split_ifs with h
    · exact Decides.raise rfl rfl (by simp [firstFailing, h.1, h.2])
    · refine ih.congr ?_
      have hb : (e.2.isOptional || !(ivarGet ivars e.2.ivarName).isNil) = true := by
        cases ho : e.2.isOptional <;> simp_all
      rw [hb, firstFailing_cons]
      rfl

theorem decides_forM {entries : List (Int16 × FieldInfo)} {write : Int16 × FieldInfo → Writer Unit}
    {cs : Int16 × FieldInfo → List Check} (h : ∀ e ∈ entries, Decides (cs e) (write e)) :
    Decides (entries.flatMap cs) (entries.forM write) := by
  induction entries with
  | nil => exact Decides.pure ()
  | cons e rest ih =>
    rw [List.flatMap_cons]
    change Decides (cs e ++ rest.flatMap cs) (do write e; rest.forM write)
    exact (h e (by simp)).bind fun _ => ih fun e' he' => h e' (List.mem_cons_of_mem _ he')

theorem decides_writeStructWith {klass : VALUE} {fields : FieldInfoMap}
    (hf : sch.fieldInfoMap klass = some fields) (ivars : List (ID × Value))
    {write : Int16 × FieldInfo → Writer Unit} {cs : Int16 × FieldInfo → List Check}
    (h : ∀ e ∈ fields.entries, Decides (cs e) (write e)) :
    Decides (requiredChecks ivars fields.entries ++ fields.entries.flatMap cs)
      (writeStructWith sch klass ivars write) := by
  unfold writeStructWith
  rw [hf]
  exact (decides_checkRequiredFields klass ivars fields.entries).bind fun _ => decides_forM h

/-- What the writer owes a value: the checks decide it, for every definition. -/
def Decided (sch : Schema) (v : Value) : Prop :=
  ∀ (outer : RClass) (fieldSym : ID) (fi : FieldInfo), fi.Generated sch.Cached →
    Decides (checks sch fi v) (writeAny sch outer fieldSym fi.ftype fi v)

theorem decides_writeElems {xs : List Value} (ih : ∀ x ∈ xs, Decided sch x) (outer : RClass)
    (fieldSym : ID) {e : FieldInfo} (he : e.Generated sch.Cached) :
    Decides (elemChecks sch (some e) xs) (writeElems sch outer fieldSym e xs) := by
  induction xs with
  | nil => exact Decides.pure ()
  | cons x xs ihxs =>
    rw [elemChecks, writeElems]
    exact (ih x (by simp) outer fieldSym e he).bind fun _ =>
      ihxs fun y hy => ih y (List.mem_cons_of_mem _ hy)

theorem decides_writeEntries {kvs : List (Value × Value)}
    (ih : ∀ kv ∈ kvs, Decided sch kv.1 ∧ Decided sch kv.2) (outer : RClass) (fieldSym : ID)
    {k e : FieldInfo} (hk : k.Generated sch.Cached) (he : e.Generated sch.Cached) :
    Decides (entryChecks sch (some k) (some e) kvs) (writeEntries sch outer fieldSym k e kvs) := by
  induction kvs with
  | nil => exact Decides.pure ()
  | cons kv kvs ihkvs =>
    obtain ⟨x, y⟩ := kv
    rw [entryChecks, writeEntries]
    refine ((ih (x, y) (by simp)).1 outer fieldSym k hk).bind fun _ => ?_
    refine ((ih (x, y) (by simp)).2 outer fieldSym e he).bind fun _ => ?_
    exact ihkvs fun kv hkv => ih kv (List.mem_cons_of_mem _ hkv)

theorem decides_writeIvar {ivars : List (ID × Value)} (ih : ∀ d ∈ ivars, Decided sch d.2)
    (data : RClass) (e : Int16 × FieldInfo) (he : e.2.Generated sch.Cached) :
    Decides (ivarChecks sch e.2 ivars) (writeIvar sch data e ivars) := by
  induction ivars with
  | nil => exact Decides.pure ()
  | cons d rest ihrest =>
    obtain ⟨name, v⟩ := d
    rw [ivarChecks, writeIvar]
    split_ifs with hn hnil
    · exact Decides.pure ()
    · refine (decides_emit _).bind fun _ => ?_
      have h := (ih (name, v) (by simp) data e.2.symName e.2 he).bind fun _ =>
        decides_emit Token.fieldEnd
      rwa [List.append_nil] at h
    · exact ihrest fun d hd => ih d (List.mem_cons_of_mem _ hd)

theorem inWidth_fixnum {ttype : TType} (ht : ttype ≠ .I64) (n : ℤ) (h : fixnum n = false) :
    inWidth ttype n = false := by
  simp only [fixnum, decide_eq_false_iff_not] at h
  cases ttype with
  | I64 => exact absurd rfl ht
  | BYTE | I16 | I32 =>
    rw [inWidth, decide_eq_false_iff_not]
    omega
  | _ => rfl

theorem real_classOf_obj (oid : ℕ) (klass : VALUE) (eigen : Bool) (ivars : List (ID × Value)) :
    (classOf (.obj oid klass eigen ivars)).real = .user klass := by
  cases eigen <;> rfl

theorem decided_of_parts (v : Value) (ary : ∀ xs, v = .ary xs → ∀ x ∈ xs, Decided sch x)
    (set : ∀ xs, v = .set xs → ∀ x ∈ xs, Decided sch x)
    (hash : ∀ kvs, v = .hash kvs → ∀ kv ∈ kvs, Decided sch kv.1 ∧ Decided sch kv.2)
    (obj : ∀ o k g iv, v = .obj o k g iv → ∀ d ∈ iv, Decided sch d.2) : Decided sch v := by
  intro outer fieldSym fi hg
  have mismatch : ∀ expected, Decides [(.TypeMismatch, false)]
      (raiseTypeMismatch sch outer fieldSym expected v : Writer Unit) := fun expected =>
    decides_mismatch sch outer fieldSym expected v []
  unfold checks writeAny
  cases ht : fi.ftype with
  | I16 =>
    refine Decides.emit (decides_convertFixnum sch outer fieldSym (fun n => ?_)
      (inWidth_fixnum (by simp)) v)
    exact decides_range rfl _ _
  | I32 =>
    refine Decides.emit (decides_convertFixnum sch outer fieldSym (fun n => ?_)
      (inWidth_fixnum (by simp)) v)
    exact decides_range rfl _ _
  | BYTE =>
    exact Decides.emit (decides_convertFixnum sch outer fieldSym decides_byteConvert
      (inWidth_fixnum (by simp)) v)
  | I64 => exact Decides.emit (decides_convertI64 sch outer fieldSym v)
  | BOOL => exact Decides.emit (decides_convertBool sch outer fieldSym v)
  | DOUBLE => exact Decides.emit (decides_convertFloat sch outer fieldSym v)
  | STRING =>
    cases v with
    | str enc bytes => exact (decides_emit _).congr (by simp [firstFailing])
    | _ => exact mismatch _
  | LIST =>
    cases v with
    | ary xs =>
      obtain ⟨e, he⟩ := exists_element hg (.inl ht)
      simp only [he]
      refine Decides.congr (?_ : Decides (elemChecks sch (some e) xs) _)
        (by simp [firstFailing_cons])
      refine Decides.after_emit _ ?_
      have h := (decides_writeElems (ary xs rfl) outer fieldSym
        (generated_element hg he)).bind fun _ => decides_emit .listEnd
      rwa [List.append_nil] at h
    | _ => exact mismatch _
  | SET =>
    cases v with
    | set xs =>
      obtain ⟨e, he⟩ := exists_element hg (.inr (.inl ht))
      simp only [he, classOf, RClass.real, ne_eq, not_true_eq_false, ↓reduceIte]
      refine Decides.congr (?_ : Decides (elemChecks sch (some e) xs) _)
        (by simp [firstFailing_cons])
      refine Decides.after_emit _ ?_
      have h := (decides_writeElems (set xs rfl) outer fieldSym
        (generated_element hg he)).bind fun _ => decides_emit .listEnd
      rwa [List.append_nil] at h
    | obj o k g iv =>
      rw [real_classOf_obj, if_pos (by simp)]
      exact mismatch _
    | bool b => cases b <;> exact mismatch _
    | _ => exact mismatch _
  | MAP =>
    cases v with
    | hash kvs =>
      obtain ⟨k, hk⟩ := exists_key hg ht
      obtain ⟨e, he⟩ := exists_element hg (.inr (.inr ht))
      simp only [hk, he]
      refine Decides.congr (?_ : Decides (entryChecks sch (some k) (some e) kvs) _)
        (by simp [firstFailing_cons])
      refine Decides.after_emit _ ?_
      have h := (decides_writeEntries (hash kvs rfl) outer fieldSym (generated_key hg hk)
        (generated_element hg he)).bind fun _ => decides_emit .mapEnd
      rwa [List.append_nil] at h
    | _ => exact mismatch _
  | STRUCT =>
    cases v with
    | obj o k g iv =>
      rw [real_classOf_obj]
      by_cases hk : k = fi.klass
      · obtain ⟨fields, hf⟩ := Option.isSome_iff_exists.mp (generated_klass hg ht)
        subst hk
        simp only [ne_eq, not_true_eq_false, ↓reduceIte, hf, beq_self_eq_true]
        refine Decides.congr (?_ : Decides (requiredChecks iv fields.entries ++
          fields.entries.flatMap fun e => ivarChecks sch e.2 iv) _) (by simp [firstFailing_cons])
        refine Decides.after_emit _ ?_
        have h := (decides_writeStructWith hf iv fun e he =>
          decides_writeIvar (obj o _ g iv rfl) (classOf (.obj o fi.klass g iv)) e
            (sch.generated fi.klass fields hf e he)).bind fun _ =>
          (decides_emit .structEnd).after_emit .fieldStop
        rwa [List.append_nil] at h
      · have hne : RClass.user k ≠ .user fi.klass := by simpa using hk
        have hb : (k == fi.klass) = false := by simpa using hk
        dsimp only
        rw [if_pos hne, hb]
        exact decides_mismatch sch outer fieldSym _ _ _
    | bool b => cases b <;> exact mismatch _
    | _ => exact mismatch _
  | STOP | VOID | U64 | UTF8 | UTF16 | unknown => exact Decides.pure ()

theorem decided (v : Value) : Decided sch v := by
  induction v using Value.induct with
  | ary xs ih => exact decided_of_parts _ (by rintro _ ⟨⟩; exact ih) (by simp) (by simp) (by simp)
  | set xs ih => exact decided_of_parts _ (by simp) (by rintro _ ⟨⟩; exact ih) (by simp) (by simp)
  | hash kvs ih => exact decided_of_parts _ (by simp) (by simp) (by rintro _ ⟨⟩; exact ih) (by simp)
  | obj o k g iv ih =>
    exact decided_of_parts _ (by simp) (by simp) (by simp) (by rintro _ _ _ _ ⟨⟩; exact ih)
  | _ => exact decided_of_parts _ (by simp) (by simp) (by simp) (by simp)

end Structs

section Accepted
variable {sch : Schema}

theorem firstFailing_eq_none (cs : List Check) :
    firstFailing cs = none ↔ ∀ c ∈ cs, c.2 = true := by
  simp [firstFailing]

theorem elemChecks_eq (e : FieldInfo) (xs : List Value) :
    elemChecks sch (some e) xs = xs.flatMap (checks sch e) := by
  induction xs with
  | nil => rfl
  | cons x xs ih => rw [elemChecks, ih, List.flatMap_cons]

theorem entryChecks_eq (k e : FieldInfo) (kvs : List (Value × Value)) :
    entryChecks sch (some k) (some e) kvs =
      kvs.flatMap fun kv => checks sch k kv.1 ++ checks sch e kv.2 := by
  induction kvs with
  | nil => rfl
  | cons kv kvs ih =>
    obtain ⟨x, y⟩ := kv
    rw [entryChecks, ih, List.flatMap_cons, List.append_assoc]

theorem ivarChecks_eq (e : FieldInfo) (ivars : List (ID × Value)) :
    ivarChecks sch e ivars = if (ivarGet ivars e.ivarName).isNil then []
      else checks sch e (ivarGet ivars e.ivarName) := by
  induction ivars with
  | nil => rfl
  | cons d rest ih =>
    obtain ⟨name, v⟩ := d
    rw [ivarChecks, ivarGet]
    by_cases hn : name = e.ivarName
    · rw [if_pos hn, if_pos hn]
    · rw [if_neg hn, if_neg hn, ih]

/-- No check of `v` fails for `fi`. -/
def Passes (sch : Schema) (fi : FieldInfo) (v : Value) : Prop :=
  firstFailing (checks sch fi v) = none

theorem passes_ary_iff {fi e : FieldInfo} (ht : fi.ftype = .LIST) (he : fi.elementType = some e)
    (xs : List Value) : Passes sch fi (.ary xs) ↔ ∀ x ∈ xs, Passes sch e x := by
  have heq : checks sch fi (.ary xs) = (.TypeMismatch, true) :: elemChecks sch (some e) xs := by
    unfold checks
    simp only [ht, he]
  unfold Passes
  simp only [heq, firstFailing_cons, ↓reduceIte, elemChecks_eq, firstFailing_eq_none,
    List.mem_flatMap]
  exact ⟨fun h x hx c hc => h c ⟨x, hx, hc⟩, fun h c ⟨x, hx, hc⟩ => h x hx c hc⟩

theorem passes_set_iff {fi e : FieldInfo} (ht : fi.ftype = .SET) (he : fi.elementType = some e)
    (xs : List Value) : Passes sch fi (.set xs) ↔ ∀ x ∈ xs, Passes sch e x := by
  have heq : checks sch fi (.set xs) = (.TypeMismatch, true) :: elemChecks sch (some e) xs := by
    unfold checks
    simp only [ht, he]
  unfold Passes
  simp only [heq, firstFailing_cons, ↓reduceIte, elemChecks_eq, firstFailing_eq_none,
    List.mem_flatMap]
  exact ⟨fun h x hx c hc => h c ⟨x, hx, hc⟩, fun h c ⟨x, hx, hc⟩ => h x hx c hc⟩

theorem passes_hash_iff {fi k e : FieldInfo} (ht : fi.ftype = .MAP) (hk : fi.keyType = some k)
    (he : fi.elementType = some e) (kvs : List (Value × Value)) :
    Passes sch fi (.hash kvs) ↔ ∀ kv ∈ kvs, Passes sch k kv.1 ∧ Passes sch e kv.2 := by
  have heq : checks sch fi (.hash kvs) =
      (.TypeMismatch, true) :: entryChecks sch (some k) (some e) kvs := by
    unfold checks
    simp only [ht, hk, he]
  unfold Passes
  simp only [heq, firstFailing_cons, ↓reduceIte, entryChecks_eq, firstFailing_eq_none,
    List.mem_flatMap, List.mem_append]
  constructor
  · exact fun h kv hkv => ⟨fun c hc => h c ⟨kv, hkv, .inl hc⟩, fun c hc => h c ⟨kv, hkv, .inr hc⟩⟩
  · rintro h c ⟨kv, hkv, hc | hc⟩
    · exact (h kv hkv).1 c hc
    · exact (h kv hkv).2 c hc

theorem passes_obj_iff {fi : FieldInfo} (ht : fi.ftype = .STRUCT) {fields : FieldInfoMap}
    (hf : sch.fieldInfoMap fi.klass = some fields) (oid : ℕ) (klass : VALUE) (eigen : Bool)
    (ivars : List (ID × Value)) : Passes sch fi (.obj oid klass eigen ivars) ↔
      klass = fi.klass ∧ ∀ e ∈ fields.entries,
        (e.2.isOptional = false → ivarGet ivars e.2.ivarName ≠ .nil) ∧
        (ivarGet ivars e.2.ivarName ≠ .nil → Passes sch e.2 (ivarGet ivars e.2.ivarName)) := by
  have hreq : firstFailing (requiredChecks ivars fields.entries) = none ↔
      ∀ e ∈ fields.entries, e.2.isOptional = false → ivarGet ivars e.2.ivarName ≠ .nil := by
    simp only [requiredChecks, firstFailing_eq_none, List.forall_mem_map, Bool.or_eq_true,
      Bool.not_eq_true', Value.isNil_eq_false]
    refine forall₂_congr fun e he => ?_
    cases e.2.isOptional <;> simp
  have hheld : firstFailing (fields.entries.flatMap fun e => ivarChecks sch e.2 ivars) = none ↔
      ∀ e ∈ fields.entries, ivarGet ivars e.2.ivarName ≠ .nil →
        Passes sch e.2 (ivarGet ivars e.2.ivarName) := by
    simp only [firstFailing_eq_none, List.mem_flatMap, Passes, ivarChecks_eq]
    constructor
    · intro h e he hn c hc
      refine h c ⟨e, he, ?_⟩
      rwa [if_neg (by simpa using hn)]
    · rintro h c ⟨e, he, hc⟩
      by_cases hn : (ivarGet ivars e.2.ivarName).isNil = true
      · simp [hn] at hc
      · rw [if_neg hn] at hc
        exact h e he (by simpa using hn) c hc
  have heq : checks sch fi (.obj oid klass eigen ivars) = (.TypeMismatch, klass == fi.klass) ::
      (requiredChecks ivars fields.entries ++
        fields.entries.flatMap fun e => ivarChecks sch e.2 ivars) := by
    unfold checks
    simp only [ht, hf]
  unfold Passes at hheld ⊢
  simp only [heq, firstFailing_cons, firstFailing_append]
  by_cases hk : klass = fi.klass
  · simp only [hk, beq_self_eq_true, ↓reduceIte, Option.or_eq_none_iff, hreq, hheld, true_and]
    exact ⟨fun h e he => ⟨h.1 e he, h.2 e he⟩,
      fun h => ⟨fun e he => (h e he).1, fun e he => (h e he).2⟩⟩
  · simp [hk]

theorem passes_of_conforms {fi : FieldInfo} {v : Value} (h : Conforms sch fi v) :
    Passes sch fi v := by
  induction h with
  | int fi n range =>
    cases ht : fi.ftype with
    | I16 | I32 | I64 | BYTE =>
      rw [ht] at range
      unfold Passes checks
      simp [ht, intChecks, range, firstFailing]
    | _ => simp [ht, inWidth] at range
  | bool fi b type => simp [Passes, checks, type, firstFailing]
  | double fi bits type => simp [Passes, checks, type, firstFailing]
  | string fi enc bytes type => simp [Passes, checks, type, firstFailing]
  | list fi e xs type element _ ih => exact (passes_ary_iff type element xs).mpr ih
  | set fi e xs type element _ ih => exact (passes_set_iff type element xs).mpr ih
  | map fi k e kvs type key element _ _ ihk ihv =>
    exact (passes_hash_iff type key element kvs).mpr fun kv hkv => ⟨ihk kv hkv, ihv kv hkv⟩
  | struct fi oid eigen ivars fields type table required _ ih =>
    exact (passes_obj_iff type table oid _ eigen ivars).mpr
      ⟨rfl, fun e he => ⟨required e he, ih e he⟩⟩

theorem passes_ftype {fi : FieldInfo} (hg : fi.ftype.isWire = true) {v : Value}
    (h : Passes sch fi v) :
    match v with
    | .int n => inWidth fi.ftype n = true
    | .bool _ => fi.ftype = .BOOL
    | .float _ => fi.ftype = .DOUBLE
    | .str _ _ => fi.ftype = .STRING
    | .ary _ => fi.ftype = .LIST
    | .set _ => fi.ftype = .SET
    | .hash _ => fi.ftype = .MAP
    | .obj .. => fi.ftype = .STRUCT
    | _ => False := by
  unfold Passes checks at h
  cases ht : fi.ftype with
  | STOP | VOID | U64 | UTF8 | UTF16 | unknown => simp [ht, TType.isWire] at hg
  | _ => cases v <;> simp_all [intChecks, firstFailing]

theorem conforms_of_passes {fi : FieldInfo} {v : Value} (hg : fi.Generated sch.Cached)
    (h : Passes sch fi v) : Conforms sch fi v := by
  induction v using Value.induct generalizing fi with
  | nil | sym | klass | foreign => exact (passes_ftype (generated_isWire hg) h).elim
  | int n => exact .int fi n (passes_ftype (generated_isWire hg) h)
  | bool b => exact .bool fi b (passes_ftype (generated_isWire hg) h)
  | float bits => exact .double fi bits (passes_ftype (generated_isWire hg) h)
  | str enc bytes => exact .string fi enc bytes (passes_ftype (generated_isWire hg) h)
  | ary xs ih =>
    have ht : fi.ftype = .LIST := passes_ftype (generated_isWire hg) h
    obtain ⟨e, he⟩ := exists_element hg (.inl ht)
    have hall := (passes_ary_iff ht he xs).mp h
    exact .list fi e xs ht he fun x hx => ih x hx (generated_element hg he) (hall x hx)
  | set xs ih =>
    have ht : fi.ftype = .SET := passes_ftype (generated_isWire hg) h
    obtain ⟨e, he⟩ := exists_element hg (.inr (.inl ht))
    have hall := (passes_set_iff ht he xs).mp h
    exact .set fi e xs ht he fun x hx => ih x hx (generated_element hg he) (hall x hx)
  | hash kvs ih =>
    have ht : fi.ftype = .MAP := passes_ftype (generated_isWire hg) h
    obtain ⟨k, hk⟩ := exists_key hg ht
    obtain ⟨e, he⟩ := exists_element hg (.inr (.inr ht))
    have hall := (passes_hash_iff ht hk he kvs).mp h
    exact .map fi k e kvs ht hk he
      (fun kv hkv => (ih kv hkv).1 (generated_key hg hk) (hall kv hkv).1)
      fun kv hkv => (ih kv hkv).2 (generated_element hg he) (hall kv hkv).2
  | obj oid klass eigen ivars ih =>
    have ht : fi.ftype = .STRUCT := passes_ftype (generated_isWire hg) h
    obtain ⟨fields, hf⟩ := Option.isSome_iff_exists.mp (generated_klass hg ht)
    obtain ⟨rfl, hall⟩ := (passes_obj_iff ht hf oid klass eigen ivars).mp h
    refine .struct fi oid eigen ivars fields ht hf (fun e he => (hall e he).1) fun e he hn => ?_
    exact ih _ (ivarGet_mem hn) (sch.generated fi.klass fields hf e he) ((hall e he).2 hn)

end Accepted

section Serialize
variable {σ : Type} (P : TProtocol σ) (sch : Schema)

theorem generated_classInfo {klass : VALUE} (hk : sch.Cached klass) :
    (classInfo klass).Generated sch.Cached :=
  .struct _ rfl hk rfl rfl

theorem serializerWriteStruct_eq (oid : ℕ) (klass : VALUE) (eigen : Bool)
    (ivars : List (ID × Value)) (outer : RClass) (fieldSym : ID) :
    serializerWriteStruct sch klass (.obj oid klass eigen ivars) =
      writeAny sch outer fieldSym .STRUCT (classInfo klass) (.obj oid klass eigen ivars) := by
  unfold serializerWriteStruct writeAny
  simp only [real_classOf_obj, classInfo, ne_eq, not_true_eq_false, ↓reduceIte]
  rfl

/-- `BaseType#serialize` returns bytes exactly for the conforming objects of a class; for
    the others it raises, with the class of the first check that fails. -/
theorem serialize_ok_iff_conforms (oid : ℕ) (klass : VALUE) (eigen : Bool)
    (ivars : List (ID × Value)) (hk : sch.Cached klass) :
    ((∃ bytes, serialize P sch (.obj oid klass eigen ivars) = .ok bytes) ↔
      Conforms sch (classInfo klass) (.obj oid klass eigen ivars)) ∧
    ∀ e, serialize P sch (.obj oid klass eigen ivars) = .error e → e.isRaise = true ∧
      e.cls = firstFailing (checks sch (classInfo klass) (.obj oid klass eigen ivars)) := by
  have hrun : Spec (writeAny sch (.user klass) "" .STRUCT (classInfo klass)
      (.obj oid klass eigen ivars)) [] _ _ :=
    decided (.obj oid klass eigen ivars) (.user klass) "" (classInfo klass)
      (generated_classInfo sch hk) []
  have hpass : Passes sch (classInfo klass) (.obj oid klass eigen ivars) ↔
      Conforms sch (classInfo klass) (.obj oid klass eigen ivars) :=
    ⟨conforms_of_passes (generated_classInfo sch hk), passes_of_conforms⟩
  rw [← hpass]
  unfold serialize
  simp only [real_classOf_obj]
  rw [serializerWriteStruct_eq sch oid klass eigen ivars (.user klass) ""]
  unfold Spec at hrun
  cases hw : writeAny sch (.user klass) "" .STRUCT (classInfo klass)
      (.obj oid klass eigen ivars) [] with
  | ok a out =>
    simp only [hw] at hrun
    exact ⟨⟨fun _ => hrun, fun _ => ⟨_, rfl⟩⟩, by simp⟩
  | error e out =>
    simp only [hw] at hrun
    obtain ⟨hr, hc, hn⟩ := hrun
    refine ⟨⟨by simp, fun h => absurd h hn⟩, fun e' he' => ?_⟩
    obtain rfl : e = e' := by simpa using he'
    exact ⟨hr, hc⟩

/-- The exceptions that stand for a check. -/
def checkClasses : List ExcClass := [.MissingMandatory, .TypeMismatch, .RangeError]

def Classed (cs : List Check) : Prop := ∀ c ∈ cs, c.1 ∈ checkClasses

theorem classed_nil : Classed [] := fun _ hc => absurd hc List.not_mem_nil

theorem Classed.append {cs ds : List Check} (hcs : Classed cs) (hds : Classed ds) :
    Classed (cs ++ ds) := List.forall_mem_append.mpr ⟨hcs, hds⟩

theorem Classed.mismatch {cs : List Check} (hcs : Classed cs) (b : Bool) :
    Classed ((.TypeMismatch, b) :: cs) :=
  List.forall_mem_cons.mpr ⟨by simp [checkClasses], hcs⟩

theorem classed_ints (ttype : TType) (v : Value) : Classed (intChecks ttype v) := by
  unfold intChecks Classed
  split <;> simp [checkClasses]

theorem classed_elems {xs : List Value} (ih : ∀ x ∈ xs, ∀ fi, Classed (checks sch fi x))
    (e : Option FieldInfo) : Classed (elemChecks sch e xs) := by
  induction xs with
  | nil =>
    unfold elemChecks
    exact classed_nil
  | cons x xs ihxs =>
    obtain ⟨hx, hxs⟩ := List.forall_mem_cons.mp ih
    unfold elemChecks
    refine Classed.append ?_ (ihxs hxs)
    cases e with
    | none => exact classed_nil
    | some e => exact hx e

theorem classed_entries {kvs : List (Value × Value)}
    (ih : ∀ kv ∈ kvs, (∀ fi, Classed (checks sch fi kv.1)) ∧ ∀ fi, Classed (checks sch fi kv.2))
    (k e : Option FieldInfo) : Classed (entryChecks sch k e kvs) := by
  induction kvs with
  | nil =>
    unfold entryChecks
    exact classed_nil
  | cons kv kvs ihkvs =>
    obtain ⟨⟨hkey, hvalue⟩, hkvs⟩ := List.forall_mem_cons.mp ih
    unfold entryChecks
    refine Classed.append ?_ (Classed.append ?_ (ihkvs hkvs))
    · cases k with
      | none => exact classed_nil
      | some k => exact hkey k
    · cases e with
      | none => exact classed_nil
      | some e => exact hvalue e

theorem classed_fields {ivars : List (ID × Value)}
    (ih : ∀ e ∈ ivars, ∀ fi, Classed (checks sch fi e.2)) (entries : List (Int16 × FieldInfo)) :
    Classed
      (requiredChecks ivars entries ++ entries.flatMap fun e => ivarChecks sch e.2 ivars) := by
  refine Classed.append (fun c hc => ?_) fun c hc => ?_
  · obtain ⟨e, -, rfl⟩ := List.mem_map.mp hc
    simp [checkClasses]
  · obtain ⟨e, -, hc⟩ := List.mem_flatMap.mp hc
    rw [ivarChecks_eq] at hc
    by_cases hnil : ivarGet ivars e.2.ivarName = .nil
    · simp [hnil, Value.isNil] at hc
    · rw [if_neg (by rwa [Value.isNil_eq_true])] at hc
      exact ih _ (ivarGet_mem hnil) e.2 c hc

theorem classed_checks (v : Value) : ∀ fi, Classed (checks sch fi v) := by
  have hone : ∀ b : Bool, Classed [(.TypeMismatch, b)] := classed_nil.mismatch
  induction v using Value.induct with
  | ary xs ih =>
    intro fi
    unfold checks
    cases fi.ftype with
    | I16 | I32 | I64 | BYTE => exact classed_ints _ _
    | LIST => exact (classed_elems sch ih _).mismatch true
    | STOP | VOID | U64 | UTF8 | UTF16 | unknown => exact classed_nil
    | _ => exact hone false
  | set xs ih =>
    intro fi
    unfold checks
    cases fi.ftype with
    | I16 | I32 | I64 | BYTE => exact classed_ints _ _
    | SET => exact (classed_elems sch ih _).mismatch true
    | STOP | VOID | U64 | UTF8 | UTF16 | unknown => exact classed_nil
    | _ => exact hone false
  | hash kvs ih =>
    intro fi
    unfold checks
    cases fi.ftype with
    | I16 | I32 | I64 | BYTE => exact classed_ints _ _
    | MAP => exact (classed_entries sch ih _ _).mismatch true
    | STOP | VOID | U64 | UTF8 | UTF16 | unknown => exact classed_nil
    | _ => exact hone false
  | obj oid klass eigen ivars ih =>
    intro fi
    unfold checks
    cases fi.ftype with
    | I16 | I32 | I64 | BYTE => exact classed_ints _ _
    | STRUCT =>
      cases sch.fieldInfoMap fi.klass with
      | none => exact hone _
      | some fields => exact (classed_fields sch ih fields.entries).mismatch _
    | STOP | VOID | U64 | UTF8 | UTF16 | unknown => exact classed_nil
    | _ => exact hone false
  | _ =>
    intro fi
    unfold checks
    cases fi.ftype with
    | I16 | I32 | I64 | BYTE => exact classed_ints _ _
    | STOP | VOID | U64 | UTF8 | UTF16 | unknown => exact classed_nil
    | _ => exact hone _

theorem firstFailing_class {fi : FieldInfo} {v : Value} {k : ExcClass}
    (h : firstFailing (checks sch fi v) = some k) : k ∈ checkClasses := by
  obtain ⟨c, hc, rfl⟩ := Option.map_eq_some_iff.mp h
  exact classed_checks sch v fi c (List.mem_of_find?_eq_some hc)

/-- `x.serialize` returns bytes exactly when the object conforms, and otherwise raises for the
    first check that fails. -/
def AcceptsConforming (klass : VALUE) (x : Value) : Prop :=
  ((∃ bytes, callSerialize P sch x = .ok (.bytes bytes)) ↔ Conforms sch (classInfo klass) x) ∧
  (¬ Conforms sch (classInfo klass) x → ∃ e, callSerialize P sch x = .error e ∧
    e.isRaise = true ∧ e.cls = firstFailing (checks sch (classInfo klass) x))

/-- The objects of a class are accepted as they conform exactly when it has no field `serialize`:
    a reader of this name is what the call reaches. -/
theorem callSerialize_accepts_iff (oid : ℕ) (klass : VALUE) (eigen : Bool)
    (ivars : List (ID × Value)) (hk : sch.Cached klass) :
    AcceptsConforming P sch klass (.obj oid klass eigen ivars) ↔
      ∀ c ∈ sch.findClass klass, "serialize" ∉ c.fieldNames := by
  constructor
  · rintro ⟨haccepts, hraises⟩ c hc hnamed
    have hnone : ¬ Conforms sch (classInfo klass) (.obj oid klass eigen ivars) :=
        fun hconforms => by
      obtain ⟨bytes, hbytes⟩ := haccepts.mpr hconforms
      exact callSerialize_ne_bytes P hc hnamed bytes hbytes
    obtain ⟨e, he, -, hcls⟩ := hraises hnone
    rw [callSerialize_field P hc hnamed] at he
    cases hread : ObjectMethods.callReader c "serialize" ivars with
    | ok v =>
      rw [hread] at he
      cases he
    | error e' =>
      rw [hread] at he
      obtain rfl : e' = e := by simpa [Except.map] using he
      rcases ObjectMethods.callReader_class hread with hread | hread
      · have hclass := firstFailing_class sch (hcls.symm.trans hread)
        simp [checkClasses] at hclass
      · have hclass := firstFailing_class sch (hcls.symm.trans hread)
        simp [checkClasses] at hclass
  · intro hnamed
    obtain ⟨haccepts, hraises⟩ := serialize_ok_iff_conforms P sch oid klass eigen ivars hk
    unfold AcceptsConforming
    rw [callSerialize_method P hnamed, ← haccepts]
    cases hrun : serialize P sch (.obj oid klass eigen ivars) with
    | ok bytes =>
      refine ⟨⟨fun _ => ⟨bytes, rfl⟩, fun _ => ⟨bytes, rfl⟩⟩, fun h => ?_⟩
      exact absurd ⟨bytes, rfl⟩ h
    | error e =>
      refine ⟨⟨fun ⟨_, h⟩ => (by cases h), fun ⟨_, h⟩ => (by cases h)⟩, fun _ => ⟨e, rfl, ?_⟩⟩
      exact hraises e hrun

end Serialize

open BinaryProtocol Loading

/-- `MiniRequired` with its required field, and without it. -/
theorem callSerialize_miniRequired :
    (∃ bytes, callSerialize binaryProtocol userProgram.schema
      (.obj 0 24 false [("@id_i32", .int 7)]) = .ok (.bytes bytes)) ∧
    ∃ e, callSerialize binaryProtocol userProgram.schema (.obj 0 24 false []) = .error e ∧
      e.cls = some .MissingMandatory := by
  have hk : userProgram.schema.Cached 24 := by decide +kernel
  have hnamed : ∀ c ∈ userProgram.schema.findClass 24, "serialize" ∉ c.fieldNames :=
    class_of_defs userProgram (by decide +kernel) 24
  have haccepts := fun ivars => (callSerialize_accepts_iff binaryProtocol userProgram.schema 0 24
    false ivars hk).mpr hnamed
  constructor
  · refine (haccepts [("@id_i32", .int 7)]).1.mpr (conforms_of_passes (generated_classInfo _ hk) ?_)
    unfold Passes
    decide +kernel
  · have hmissing : firstFailing (checks userProgram.schema (classInfo 24) (.obj 0 24 false [])) =
        some .MissingMandatory := by decide +kernel
    have hnone : ¬ Conforms userProgram.schema (classInfo 24) (.obj 0 24 false []) := by
      intro hconforms
      have hpasses := passes_of_conforms hconforms
      unfold Passes at hpasses
      rw [hmissing] at hpasses
      cases hpasses
    obtain ⟨e, he, -, hcls⟩ := (haccepts []).2 hnone
    exact ⟨e, he, hcls.trans hmissing⟩

/-- `struct S { 1: i32 serialize }` -/
def namedClasses : ClassDefs := [(8, ⟨"S", .struct, [(.int 1, fieldDef .I32 "serialize" [])]⟩)]

def namedProgram : Loading.Program where
  defs := namedClasses
  globals := (loadClasses namedClasses).get (by decide +kernel)
  loads := (Option.some_get _).symm
  loaded := by decide +kernel

/-- `S.new.serialize` is the nil that the field holds, although the field is required. -/
theorem callSerialize_named : ¬ AcceptsConforming binaryProtocol namedProgram.schema 8
    (.obj 0 8 false []) := by
  intro haccepts
  have hcall : callSerialize binaryProtocol namedProgram.schema (.obj 0 8 false []) =
      .ok (.value .nil) := rfl
  have hnone : ¬ Conforms namedProgram.schema (classInfo 8) (.obj 0 8 false []) := by
    intro hconforms
    have hpasses := passes_of_conforms hconforms
    unfold Passes at hpasses
    revert hpasses
    decide +kernel
  obtain ⟨e, he, -⟩ := haccepts.2 hnone
  rw [hcall] at he
  cases he

end Sparsam.SerializerConformance
