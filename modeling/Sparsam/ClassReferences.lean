import Sparsam.SchemaLiteral

set_option autoImplicit false

/-!
# The classes that a struct refers to

A member refers to the structs its type leads to through typedefs and
containers, a default to those whose literals stand inside it. These are the
class constants that evaluating the literal of `FIELDS` reads.
-/
namespace Sparsam.ClassReferences
open ThriftTypes ThriftScope ThriftParser IncludeProcessing RubyNames SchemaLiteral

section
variable (scopes : String → Scope)

/-- `get_true_type` ends with this type. -/
def Expands (t u : ThriftType) : Prop := ∃ fuel, getTrueType scopes fuel t = .ok u

/-- The struct whose class stands in `:class` for this type, at some depth. -/
inductive TypeRefers : ThriftType → TStruct → Prop where
  | struct {t : ThriftType} {s : TStruct} (h : Expands scopes t (.struct s)) : TypeRefers t s
  | list {t e : ThriftType} {s : TStruct} (h : Expands scopes t (.list e)) (he : TypeRefers e s) :
      TypeRefers t s
  | set {t e : ThriftType} {s : TStruct} (h : Expands scopes t (.set e)) (he : TypeRefers e s) :
      TypeRefers t s
  | key {t k v : ThriftType} {s : TStruct} (h : Expands scopes t (.map k v))
      (hk : TypeRefers k s) : TypeRefers t s
  | value {t k v : ThriftType} {s : TStruct} (h : Expands scopes t (.map k v))
      (hv : TypeRefers v s) : TypeRefers t s

/-- The struct of a literal inside a value of this type. -/
inductive ValueRefers : ThriftType → ConstValue → TStruct → Prop where
  | struct {t : ThriftType} {cv : ConstValue} {s : TStruct} (h : Expands scopes t (.struct s)) :
      ValueRefers t cv s
  | member {t m : ThriftType} {cv x y : ConstValue} {k s : TStruct}
      (h : Expands scopes t (.struct k)) (hmem : (x, y) ∈ cv.mapVal)
      (hm : memberType k x.stringVal = some m) (hy : ValueRefers m y s) : ValueRefers t cv s
  | listElem {t e : ThriftType} {cv x : ConstValue} {s : TStruct}
      (h : Expands scopes t (.list e)) (hmem : x ∈ cv.listVal) (hx : ValueRefers e x s) :
      ValueRefers t cv s
  | setElem {t e : ThriftType} {cv x : ConstValue} {s : TStruct}
      (h : Expands scopes t (.set e)) (hmem : x ∈ cv.listVal) (hx : ValueRefers e x s) :
      ValueRefers t cv s
  | key {t k v : ThriftType} {cv x y : ConstValue} {s : TStruct}
      (h : Expands scopes t (.map k v)) (hmem : (x, y) ∈ cv.mapVal) (hx : ValueRefers k x s) :
      ValueRefers t cv s
  | value {t k v : ThriftType} {cv x y : ConstValue} {s : TStruct}
      (h : Expands scopes t (.map k v)) (hmem : (x, y) ∈ cv.mapVal) (hy : ValueRefers v y s) :
      ValueRefers t cv s

/-- The structs that a member of the struct, or its default, refers to. -/
def Refers (o s : TStruct) : Prop :=
  ∃ f ∈ o.members, TypeRefers scopes f.type s ∨ ∃ cv ∈ f.value, ValueRefers scopes f.type cv s

variable {scopes}

theorem getTrueType_unique {fuel fuel' : ℕ} {t u u' : ThriftType}
    (h : getTrueType scopes fuel t = .ok u) (h' : getTrueType scopes fuel' t = .ok u') :
    u = u' := by
  induction fuel generalizing fuel' t with
  | zero => cases h
  | succ fuel ih =>
    cases fuel' with
    | zero => cases h'
    | succ fuel' =>
      unfold getTrueType at h h'
      cases hnext : getType scopes t with
      | none =>
        rw [hnext] at h h'
        exact (Except.ok.inj h).symm.trans (Except.ok.inj h')
      | some next =>
        rw [hnext] at h h'
        obtain ⟨a, ha, h⟩ := bind_ok h
        obtain ⟨b, hb, h'⟩ := bind_ok h'
        rw [ha] at hb
        obtain rfl := Except.ok.inj hb
        exact ih h h'

theorem Expands.unique {t u u' : ThriftType} (h : Expands scopes t u) (h' : Expands scopes t u') :
    u = u' := by
  obtain ⟨_, h⟩ := h
  obtain ⟨_, h'⟩ := h'
  exact getTrueType_unique h h'

def classPath (s : TStruct) : List String := constantPath s.program s.name

theorem getTrueType_getType {fuel : ℕ} {t u : ThriftType} (h : getTrueType scopes fuel t = .ok u) :
    getType scopes u = none := by
  induction fuel generalizing t with
  | zero => cases h
  | succ fuel ih =>
    unfold getTrueType at h
    cases hnext : getType scopes t with
    | none =>
      rw [hnext] at h
      rw [← Except.ok.inj h]
      exact hnext
    | some next =>
      rw [hnext] at h
      obtain ⟨a, -, h⟩ := bind_ok h
      exact ih h

theorem Expands.head {t u : ThriftType} (h : Expands scopes t u) : getType scopes u = none := by
  obtain ⟨_, h⟩ := h
  exact getTrueType_getType h

theorem expands_self {u : ThriftType} (h : getType scopes u = none) : Expands scopes u u := by
  refine ⟨1, ?_⟩
  unfold getTrueType
  rw [h]
  rfl

end

section Types
variable {scopes : String → Scope} {fuel : ℕ}

def typeStep (scopes : String → Scope) (u : ThriftType) (s : TStruct) : Prop :=
  match u with
  | .struct k => k = s
  | .list e | .set e => TypeRefers scopes e s
  | .map k v => TypeRefers scopes k s ∨ TypeRefers scopes v s
  | _ => False

theorem typeRefers_iff {t u : ThriftType} (h : Expands scopes t u) (s : TStruct) :
    TypeRefers scopes t s ↔ typeStep scopes u s := by
  constructor
  · intro hs
    cases hs with
    | struct h' =>
      rw [h.unique h']
      rfl
    | list h' he =>
      rw [h.unique h']
      exact he
    | set h' he =>
      rw [h.unique h']
      exact he
    | key h' hk =>
      rw [h.unique h']
      exact .inl hk
    | value h' hv =>
      rw [h.unique h']
      exact .inr hv
  · intro hs
    cases u with
    | struct k =>
      have heq : k = s := hs
      exact .struct (heq ▸ h)
    | list e => exact .list h hs
    | set e => exact .set h hs
    | map k v => exact hs.elim (.key h) (.value h)
    | _ => exact hs.elim

/-- The structs in a value of an expanded type. -/
def valueStep (scopes : String → Scope) (u : ThriftType) (cv : ConstValue) (s : TStruct) : Prop :=
  match u with
  | .struct k => k = s ∨ ∃ e ∈ cv.mapVal, ∃ m, memberType k e.1.stringVal = some m ∧
      ValueRefers scopes m e.2 s
  | .list t | .set t => ∃ x ∈ cv.listVal, ValueRefers scopes t x s
  | .map k v => ∃ e ∈ cv.mapVal, ValueRefers scopes k e.1 s ∨ ValueRefers scopes v e.2 s
  | _ => False

theorem valueRefers_iff {t u : ThriftType} (h : Expands scopes t u) (cv : ConstValue)
    (s : TStruct) : ValueRefers scopes t cv s ↔ valueStep scopes u cv s := by
  constructor
  · intro hs
    cases hs with
    | struct h' =>
      rw [h.unique h']
      exact .inl rfl
    | member h' hmem hm hy =>
      rw [h.unique h']
      exact .inr ⟨_, hmem, _, hm, hy⟩
    | listElem h' hmem hx =>
      rw [h.unique h']
      exact ⟨_, hmem, hx⟩
    | setElem h' hmem hx =>
      rw [h.unique h']
      exact ⟨_, hmem, hx⟩
    | key h' hmem hx =>
      rw [h.unique h']
      exact ⟨_, hmem, .inl hx⟩
    | value h' hmem hy =>
      rw [h.unique h']
      exact ⟨_, hmem, .inr hy⟩
  · intro hs
    cases u with
    | struct k =>
      rcases hs with heq | ⟨e, hmem, m, hm, hy⟩
      · exact .struct (heq ▸ h)
      · exact .member h hmem hm hy
    | list t =>
      obtain ⟨x, hmem, hx⟩ := hs
      exact .listElem h hmem hx
    | set t =>
      obtain ⟨x, hmem, hx⟩ := hs
      exact .setElem h hmem hx
    | map k v =>
      obtain ⟨e, hmem, hx | hy⟩ := hs
      · exact .key h hmem hx
      · exact .value h hmem hy
    | _ => exact hs.elim

end Types

section Emission
variable {scopes : String → Scope} {fuel : ℕ}

open Literal

def Emits (P : TStruct → Prop) (paths : List (List String)) : Prop :=
  ∀ c, c ∈ paths ↔ ∃ s, P s ∧ classPath s = c

theorem emits_nil : Emits (fun _ => False) [] := by
  intro c
  simp

theorem Emits.append {P Q : TStruct → Prop} {ps qs : List (List String)} (hp : Emits P ps)
    (hq : Emits Q qs) : Emits (fun s => P s ∨ Q s) (ps ++ qs) := by
  intro c
  rw [List.mem_append, hp, hq]
  constructor
  · rintro (⟨s, hs, hc⟩ | ⟨s, hs, hc⟩)
    · exact ⟨s, .inl hs, hc⟩
    · exact ⟨s, .inr hs, hc⟩
  · rintro ⟨s, hs | hs, hc⟩
    · exact .inl ⟨s, hs, hc⟩
    · exact .inr ⟨s, hs, hc⟩

theorem Emits.congr {P Q : TStruct → Prop} {ps : List (List String)} (hp : Emits P ps)
    (h : ∀ s, P s ↔ Q s) : Emits Q ps := by
  have heq : P = Q := by
    funext s
    exact propext (h s)
  exact heq ▸ hp

theorem emits_classPath (s : TStruct) : Emits (fun k => k = s) [classPath s] := by
  intro c
  simp [eq_comm]

def EmitsValue (scopes : String → Scope) (fuel : ℕ) (cv : ConstValue) : Prop :=
  ∀ t e, renderConstValue scopes fuel t cv = .ok e → Emits (ValueRefers scopes t cv) e.classes

theorem renderElems_emits {t : ThriftType} {xs : List ConstValue} {es : List Literal}
    (ih : ∀ x ∈ xs, EmitsValue scopes fuel x) (h : renderElems scopes fuel t xs = .ok es) :
    Emits (fun s => ∃ x ∈ xs, ValueRefers scopes t x s) (classesOfList es) := by
  induction xs generalizing es with
  | nil =>
    unfold renderElems at h
    rw [← Except.ok.inj h]
    exact emits_nil.congr (by simp)
  | cons x xs ihxs =>
    unfold renderElems at h
    obtain ⟨e, he, h⟩ := bind_ok h
    obtain ⟨es', hes, h⟩ := bind_ok h
    rw [← Except.ok.inj h]
    have hx := ih x (by simp) t e he
    have hxs := ihxs (fun y hy => ih y (by simp [hy])) hes
    exact (hx.append hxs).congr (by simp)

theorem renderEntries_emits {k v : ThriftType} {es : List (ConstValue × ConstValue)}
    {ls : List (Literal × Literal)}
    (ih : ∀ e ∈ es, EmitsValue scopes fuel e.1 ∧ EmitsValue scopes fuel e.2)
    (h : renderEntries scopes fuel k v es = .ok ls) :
    Emits (fun s => ∃ e ∈ es, ValueRefers scopes k e.1 s ∨ ValueRefers scopes v e.2 s)
      (classesOfEntries ls) := by
  induction es generalizing ls with
  | nil =>
    unfold renderEntries at h
    rw [← Except.ok.inj h]
    exact emits_nil.congr (by simp)
  | cons e es ihes =>
    obtain ⟨x, y⟩ := e
    unfold renderEntries at h
    obtain ⟨a, ha, h⟩ := bind_ok h
    obtain ⟨b, hb, h⟩ := bind_ok h
    obtain ⟨ls', hls, h⟩ := bind_ok h
    rw [← Except.ok.inj h]
    obtain ⟨hx, hy⟩ := ih (x, y) (by simp)
    have hrest := ihes (fun e he => ih e (by simp [he])) hls
    exact (((hx k a ha).append (hy v b hb)).append hrest).congr (by simp)

theorem renderFields_emits {k : TStruct} {es : List (ConstValue × ConstValue)}
    {ls : List (Literal × Literal)} (ih : ∀ e ∈ es, EmitsValue scopes fuel e.2)
    (h : renderFields scopes fuel k es = .ok ls) :
    Emits (fun s => ∃ e ∈ es, ∃ m, memberType k e.1.stringVal = some m ∧
      ValueRefers scopes m e.2 s) (classesOfEntries ls) := by
  induction es generalizing ls with
  | nil =>
    unfold renderFields at h
    rw [← Except.ok.inj h]
    exact emits_nil.congr (by simp)
  | cons e es ihes =>
    obtain ⟨x, y⟩ := e
    unfold renderFields at h
    cases hm : memberType k x.stringVal with
    | none =>
      rw [hm] at h
      cases h
    | some m =>
      rw [hm] at h
      obtain ⟨b, hb, h⟩ := bind_ok h
      obtain ⟨ls', hls, h⟩ := bind_ok h
      rw [← Except.ok.inj h]
      have hy := ih (x, y) (by simp) m b hb
      have hrest := ihes (fun e he => ih e (by simp [he])) hls
      have hboth : Emits _ (classes b ++ classesOfEntries ls') := hy.append hrest
      refine hboth.congr fun s => ?_
      simp [hm]

theorem renderBase_classes {base : TBase} {cv : ConstValue} {e : Literal}
    (h : renderBase base cv = .ok e) : e.classes = [] := by
  have hinteger : ∀ f : Int64 → Literal, (∀ n, (f n).classes = []) →
      (do pure (f (← cv.getInteger)) : Compile Literal) = .ok e → e.classes = [] := by
    intro f hf h
    obtain ⟨n, -, h⟩ := bind_ok h
    rw [← Except.ok.inj h]
    exact hf n
  cases base with
  | TYPE_VOID => cases h
  | TYPE_STRING =>
    rw [← Except.ok.inj h]
    rfl
  | TYPE_BOOL => exact hinteger (fun n => .bool (decide (0 < n.toInt))) (fun _ => rfl) h
  | TYPE_BYTE | TYPE_I16 | TYPE_I32 | TYPE_I64 =>
    exact hinteger (fun n => .int n.toInt) (fun _ => rfl) h
  | TYPE_DOUBLE =>
    simp only [renderBase] at h
    split at h
    · exact hinteger (fun n => .int n.toInt) (fun _ => rfl) h
    · rw [← Except.ok.inj h]
      rfl

theorem renderConstValue_emits (cv : ConstValue) : EmitsValue scopes fuel cv := by
  induction cv using ConstValue.induct with
  | mk cv ihmap ihlist =>
    obtain ⟨vt, es, xs, str, n, d, i, tenum⟩ := cv
    intro t e h
    unfold renderConstValue at h
    obtain ⟨u, hu, h⟩ := bind_ok h
    refine Emits.congr ?_ fun s => (valueRefers_iff ⟨fuel, hu⟩ _ s).symm
    cases u with
    | baseType base bin =>
      have hclasses := renderBase_classes h
      rw [hclasses]
      exact emits_nil
    | enum tenum =>
      obtain ⟨m, -, h⟩ := bind_ok h
      rw [← Except.ok.inj h]
      exact emits_nil
    | struct k =>
      obtain ⟨ls, hls, h⟩ := bind_ok h
      rw [← Except.ok.inj h]
      have hfields := renderFields_emits (fun e he => (ihmap e he).2) hls
      have hboth : Emits _ ([classPath k] ++ classesOfEntries ls) :=
        (emits_classPath k).append hfields
      refine hboth.congr fun s => ?_
      unfold valueStep
      exact or_congr_left eq_comm
    | map key val =>
      obtain ⟨ls, hls, h⟩ := bind_ok h
      rw [← Except.ok.inj h]
      exact renderEntries_emits ihmap hls
    | list elem =>
      obtain ⟨ls, hls, h⟩ := bind_ok h
      rw [← Except.ok.inj h]
      exact renderElems_emits ihlist hls
    | set elem =>
      obtain ⟨ls, hls, h⟩ := bind_ok h
      rw [← Except.ok.inj h]
      exact renderElems_emits ihlist hls
    | typedef p name t => cases h
    | forwardTypedef p name => cases h

theorem typeToEnum_classes {u : ThriftType} {e : Literal} (h : typeToEnum u = .ok e) :
    e.classes = [] := by
  cases u with
  | baseType base bin =>
    cases base with
    | TYPE_VOID => cases h
    | _ =>
      rw [← Except.ok.inj h]
      rfl
  | typedef => cases h
  | forwardTypedef => cases h
  | _ =>
    rw [← Except.ok.inj h]
    rfl

theorem annotationsEntry_classes (annotations : Option (List (String × String))) :
    classesOfEntries (annotationsEntry annotations) = [] := by
  cases annotations with
  | none => rfl
  | some es =>
    have hes :
        classesOfEntries (es.map fun e => (Literal.quoted e.1, Literal.quoted e.2)) = [] := by
      induction es with
      | nil => rfl
      | cons e es ih =>
        simp only [List.map_cons, classesOfEntries, classes, ih, List.append_nil]
    simp only [annotationsEntry, classesOfEntries, classes, hes, List.append_nil]

theorem typeEntries_emits {nested : ThriftType → Compile Literal} {u : ThriftType}
    {es : List (Literal × Literal)}
    (hnested : ∀ t e, nested t = .ok e → Emits (TypeRefers scopes t) e.classes)
    (h : typeEntries nested u = .ok es) : Emits (typeStep scopes u) (classesOfEntries es) := by
  cases u with
  | struct k =>
    rw [← Except.ok.inj h]
    exact (emits_classPath k).congr fun s => eq_comm
  | list e =>
    obtain ⟨l, hl, h⟩ := bind_ok h
    rw [← Except.ok.inj h]
    have hemits := (hnested e l hl).append emits_nil
    exact hemits.congr fun s => by rw [or_false]; rfl
  | set e =>
    obtain ⟨l, hl, h⟩ := bind_ok h
    rw [← Except.ok.inj h]
    have hemits := (hnested e l hl).append emits_nil
    exact hemits.congr fun s => by rw [or_false]; rfl
  | map k v =>
    obtain ⟨a, ha, h⟩ := bind_ok h
    obtain ⟨b, hb, h⟩ := bind_ok h
    rw [← Except.ok.inj h]
    have hemits := (hnested k a ha).append ((hnested v b hb).append emits_nil)
    exact hemits.congr fun s => by rw [or_false]; rfl
  | baseType base bin =>
    rw [← Except.ok.inj h]
    cases bin <;> exact emits_nil
  | _ =>
    rw [← Except.ok.inj h]
    exact emits_nil

theorem enumEntry_classes (u : ThriftType) : classesOfEntries (enumEntry u) = [] := by
  cases u <;> rfl

theorem generateFieldData_emits {depth : ℕ} {t : ThriftType} {args : FieldArgs} {e : Literal}
    (h : generateFieldData scopes fuel depth t args = .ok e) :
    Emits (fun s => (∃ cv ∈ args.fieldValue, ValueRefers scopes t cv s) ∨ TypeRefers scopes t s)
      e.classes := by
  induction depth generalizing t args e with
  | zero => cases h
  | succ depth ih =>
    unfold generateFieldData at h
    obtain ⟨u, hu, h⟩ := bind_ok h
    obtain ⟨ttype, htype, h⟩ := bind_ok h
    obtain ⟨default, hdefault, h⟩ := bind_ok h
    obtain ⟨entries, hentries, h⟩ := bind_ok h
    rw [← Except.ok.inj h]
    have hexpands : Expands scopes t u := ⟨fuel, hu⟩
    have hnested : ∀ t e, generateFieldData scopes fuel depth t {} = .ok e →
        Emits (TypeRefers scopes t) e.classes := fun t e he => (ih he).congr (by simp)
    have htypes := typeEntries_emits hnested hentries
    have hvalue : Emits (fun s => ∃ cv ∈ args.fieldValue, ValueRefers scopes t cv s)
        (classesOfEntries default) := by
      cases hv : args.fieldValue with
      | none =>
        rw [hv] at hdefault
        rw [← Except.ok.inj hdefault]
        exact emits_nil.congr (by simp)
      | some cv =>
        rw [hv] at hdefault
        obtain ⟨l, hl, hdefault⟩ := bind_ok hdefault
        rw [← Except.ok.inj hdefault]
        have hemits := (renderConstValue_emits cv u l hl).append emits_nil
        refine hemits.congr fun s => ?_
        have hself := expands_self (getTrueType_getType hu)
        have hsame : ValueRefers scopes u cv s ↔ ValueRefers scopes t cv s :=
          (valueRefers_iff hself cv s).trans (valueRefers_iff hexpands cv s).symm
        rw [or_false, hsame]
        simp
    have hall := hvalue.append (htypes.congr fun s => (typeRefers_iff hexpands s).symm)
    have hclasses : classes (.hash ([(.sym "type", ttype)] ++
        (if args.fieldName = "" then [] else [(.sym "name", .quoted args.fieldName)]) ++ default ++
        entries ++ (if args.optional then [(.sym "optional", .bool true)] else []) ++
        enumEntry u ++ annotationsEntry args.annotations)) =
          classesOfEntries default ++ classesOfEntries entries := by
      have hname : classesOfEntries
          (if args.fieldName = "" then [] else [(.sym "name", .quoted args.fieldName)]) = [] := by
        split <;> rfl
      have hoptional : classesOfEntries
          (if args.optional then [(.sym "optional", .bool true)] else []) = [] := by
        split <;> rfl
      have htag : classesOfEntries [(.sym "type", ttype)] = [] := by
        simp only [classesOfEntries, classes, typeToEnum_classes htype, List.append_nil]
      simp only [classes, classesOfEntries_append, hname, hoptional, htag, enumEntry_classes,
        annotationsEntry_classes, List.nil_append, List.append_nil]
    rw [hclasses]
    exact hall

theorem fieldEntries_emits {fs : List TField} {es : List (Literal × Literal)}
    (h : fs.mapM (fieldEntry scopes fuel) = .ok es) :
    Emits (fun s => ∃ f ∈ fs, TypeRefers scopes f.type s ∨
      ∃ cv ∈ f.value, ValueRefers scopes f.type cv s) (classesOfEntries es) := by
  induction fs generalizing es with
  | nil =>
    rw [← Except.ok.inj h]
    exact emits_nil.congr (by simp)
  | cons f fs ih =>
    rw [List.mapM_cons] at h
    obtain ⟨e, he, h⟩ := bind_ok h
    obtain ⟨es', hes, h⟩ := bind_ok h
    rw [← Except.ok.inj h]
    obtain ⟨l, hl, he⟩ := bind_ok he
    rw [← Except.ok.inj he]
    have hfield := generateFieldData_emits hl
    have hboth : Emits _ (classes l ++ classesOfEntries es') := hfield.append (ih hes)
    refine hboth.congr fun s => ?_
    simp only [fieldArgs, List.mem_cons, exists_eq_or_imp, or_comm]

/-- The constants read in a class body are those of the structs its struct refers to. -/
theorem generateRbStruct_emits {p : TProgram} {o : TStruct} {c : ClassStatement}
    (h : generateRbStruct scopes fuel p o = .ok c) :
    c.path = constantPath p o.name ∧ Emits (Refers scopes o) c.fields.classes := by
  obtain ⟨fields, hfields, h⟩ := bind_ok h
  rw [← Except.ok.inj h]
  obtain ⟨es, hes, hfields⟩ := bind_ok hfields
  rw [← Except.ok.inj hfields]
  exact ⟨rfl, fieldEntries_emits hes⟩

end Emission

end Sparsam.ClassReferences
