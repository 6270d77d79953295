import Sparsam.ConstantAccess
import Sparsam.FieldLists

set_option autoImplicit false

/-!
# Which literals are read as what they are

The type decides which member is read, and it is checked only where no typedef
or container stands before it. So a literal is read rightly when it already
fits: `Fits` compares a value with the expanded type, `FitsLiteral` a literal
with the type it was declared at, before its identifiers are resolved.
-/
namespace Sparsam.FittingLiterals
open ThriftTypes ThriftScope SchemaLiteral ClassReferences ConstantAccess FieldLists

def Integral (cv : ConstValue) : Prop := (call .get_integer cv).Matches

def TBase.IsInteger (base : TBase) : Prop :=
  match base with
  | .TYPE_BOOL | .TYPE_BYTE | .TYPE_I16 | .TYPE_I32 | .TYPE_I64 => True
  | _ => False

inductive Fits (scopes : String → Scope) : ThriftType → ConstValue → Prop where
  | string {t : ThriftType} {cv : ConstValue} {bin : Bool}
      (h : Expands scopes t (.baseType .TYPE_STRING bin)) (hv : cv.valType = .CV_STRING) :
      Fits scopes t cv
  | integer {t : ThriftType} {cv : ConstValue} {base : TBase} {bin : Bool}
      (h : Expands scopes t (.baseType base bin)) (hbase : TBase.IsInteger base)
      (hv : Integral cv) : Fits scopes t cv
  | double {t : ThriftType} {cv : ConstValue} {bin : Bool}
      (h : Expands scopes t (.baseType .TYPE_DOUBLE bin))
      (hv : cv.valType = .CV_INTEGER ∨ cv.valType = .CV_DOUBLE) : Fits scopes t cv
  | enum {t : ThriftType} {cv : ConstValue} {e : TEnum} (h : Expands scopes t (.enum e))
      (hv : Integral cv) : Fits scopes t cv
  | struct {t : ThriftType} {cv : ConstValue} {s : TStruct} (h : Expands scopes t (.struct s))
      (hv : cv.valType = .CV_MAP) (hkeys : ∀ e ∈ cv.mapVal, e.1.valType = .CV_STRING)
      (hvals : ∀ e ∈ cv.mapVal, ∀ m, memberType s e.1.stringVal = some m → Fits scopes m e.2) :
      Fits scopes t cv
  | map {t k v : ThriftType} {cv : ConstValue} (h : Expands scopes t (.map k v))
      (hv : cv.valType = .CV_MAP) (hkeys : ∀ e ∈ cv.mapVal, Fits scopes k e.1)
      (hvals : ∀ e ∈ cv.mapVal, Fits scopes v e.2) : Fits scopes t cv
  | list {t elem : ThriftType} {cv : ConstValue} (h : Expands scopes t (.list elem))
      (hv : cv.valType = .CV_LIST) (helems : ∀ x ∈ cv.listVal, Fits scopes elem x) :
      Fits scopes t cv
  | set {t elem : ThriftType} {cv : ConstValue} (h : Expands scopes t (.set elem))
      (hv : cv.valType = .CV_LIST) (helems : ∀ x ∈ cv.listVal, Fits scopes elem x) :
      Fits scopes t cv

def fitsStep (scopes : String → Scope) (u : ThriftType) (cv : ConstValue) : Prop :=
  match u with
  | .baseType base _ =>
    match base with
    | .TYPE_STRING => cv.valType = .CV_STRING
    | .TYPE_DOUBLE => cv.valType = .CV_INTEGER ∨ cv.valType = .CV_DOUBLE
    | .TYPE_VOID => False
    | _ => Integral cv
  | .enum _ => Integral cv
  | .struct s =>
    cv.valType = .CV_MAP ∧ (∀ e ∈ cv.mapVal, e.1.valType = .CV_STRING) ∧
      ∀ e ∈ cv.mapVal, ∀ m, memberType s e.1.stringVal = some m → Fits scopes m e.2
  | .map k v =>
    cv.valType = .CV_MAP ∧ (∀ e ∈ cv.mapVal, Fits scopes k e.1) ∧
      ∀ e ∈ cv.mapVal, Fits scopes v e.2
  | .list elem | .set elem => cv.valType = .CV_LIST ∧ ∀ x ∈ cv.listVal, Fits scopes elem x
  | _ => False

section
variable {scopes : String → Scope}

theorem fits_iff {t u : ThriftType} (h : Expands scopes t u) (cv : ConstValue) :
    Fits scopes t cv ↔ fitsStep scopes u cv := by
  constructor
  · intro hfits
    cases hfits with
    | string h' hv =>
      rw [h.unique h']
      exact hv
    | integer h' hbase hv =>
      rw [h.unique h']
      rename_i base _
      cases base <;> first | exact hv | exact hbase.elim
    | double h' hv =>
      rw [h.unique h']
      exact hv
    | enum h' hv =>
      rw [h.unique h']
      exact hv
    | struct h' hv hkeys hvals =>
      rw [h.unique h']
      exact ⟨hv, hkeys, hvals⟩
    | map h' hv hkeys hvals =>
      rw [h.unique h']
      exact ⟨hv, hkeys, hvals⟩
    | list h' hv helems =>
      rw [h.unique h']
      exact ⟨hv, helems⟩
    | set h' hv helems =>
      rw [h.unique h']
      exact ⟨hv, helems⟩
  · intro hstep
    cases u with
    | baseType base bin =>
      cases base with
      | TYPE_STRING => exact .string h hstep
      | TYPE_DOUBLE => exact .double h hstep
      | TYPE_VOID => exact hstep.elim
      | _ => exact .integer h trivial hstep
    | enum e => exact .enum h hstep
    | struct s => exact .struct h hstep.1 hstep.2.1 hstep.2.2
    | map k v => exact .map h hstep.1 hstep.2.1 hstep.2.2
    | list elem => exact .list h hstep.1 hstep.2
    | set elem => exact .set h hstep.1 hstep.2
    | _ => exact hstep.elim

theorem not_fits_identifier {t : ThriftType} {cv : ConstValue}
    (hv : cv.valType = .CV_IDENTIFIER) (henum : cv.tenum = none) : ¬ Fits scopes t cv := by
  have hnot : ¬ Integral cv := by
    intro h
    rcases h with h | ⟨-, h⟩
    · change cv.valType = .CV_INTEGER at h
      rw [hv] at h
      cases h
    · change cv.tenum.isSome = true at h
      rw [henum] at h
      cases h
  intro h
  cases h with
  | integer _ _ h => exact hnot h
  | enum _ h => exact hnot h
  | double _ h => rcases h with h | h <;> (rw [hv] at h; cases h)
  | string _ h | struct _ h | map _ h | list _ h | set _ h =>
    rw [hv] at h
    cases h

end

section Render
variable {scopes : String → Scope} {fuel : ℕ}

theorem integerCalls_clean {cv : ConstValue} : (integerCalls cv).Clean ↔ Integral cv := by
  constructor
  · intro h
    exact h _ (List.mem_singleton.mpr rfl)
  · intro h c hc
    rw [List.mem_singleton.mp hc]
    exact h

theorem clean_single {c : Call} : (Walk.of [c]).Clean ↔ c.Matches := by
  rw [Walk.clean_of_iff]
  simp

theorem baseCalls_double (cv : ConstValue) : baseCalls .TYPE_DOUBLE cv =
    if cv.valType = .CV_INTEGER then integerCalls cv else .of [call .get_double cv] := rfl

theorem baseCalls_clean {base : TBase} {bin : Bool} {cv : ConstValue}
    (h : fitsStep scopes (.baseType base bin) cv) : (baseCalls base cv).Clean := by
  cases base with
  | TYPE_STRING => exact clean_single.mpr h
  | TYPE_VOID => exact h.elim
  | TYPE_DOUBLE =>
    rw [baseCalls_double]
    split
    · rename_i hint
      exact integerCalls_clean.mpr (.inl hint)
    · rename_i hint
      exact clean_single.mpr (h.resolve_left hint)
  | _ => exact integerCalls_clean.mpr h

theorem renderElemsCalls_clean {t : ThriftType} {xs : List ConstValue}
    (h : ∀ x ∈ xs, (renderCalls scopes fuel t x).Clean) :
    (renderElemsCalls scopes fuel t xs).Clean := by
  induction xs with
  | nil =>
    unfold renderElemsCalls
    exact (Walk.clean_of_iff []).mpr (by simp)
  | cons x xs ih =>
    unfold renderElemsCalls
    exact (h x (by simp)).andThen (ih fun y hy => h y (by simp [hy]))

theorem renderEntriesCalls_clean {k v : ThriftType} {es : List (ConstValue × ConstValue)}
    (hk : ∀ e ∈ es, (renderCalls scopes fuel k e.1).Clean)
    (hv : ∀ e ∈ es, (renderCalls scopes fuel v e.2).Clean) :
    (renderEntriesCalls scopes fuel k v es).Clean := by
  induction es with
  | nil =>
    unfold renderEntriesCalls
    exact (Walk.clean_of_iff []).mpr (by simp)
  | cons e es ih =>
    unfold renderEntriesCalls
    have hrest := ih (fun e he => hk e (by simp [he])) (fun e he => hv e (by simp [he]))
    exact (hk e (by simp)).andThen ((hv e (by simp)).andThen hrest)

theorem renderFieldsCalls_clean {s : TStruct} {es : List (ConstValue × ConstValue)}
    (hk : ∀ e ∈ es, e.1.valType = .CV_STRING)
    (hv : ∀ e ∈ es, ∀ m, memberType s e.1.stringVal = some m →
      (renderCalls scopes fuel m e.2).Clean) : (renderFieldsCalls scopes fuel s es).Clean := by
  induction es with
  | nil =>
    unfold renderFieldsCalls
    exact (Walk.clean_of_iff []).mpr (by simp)
  | cons e es ih =>
    unfold renderFieldsCalls
    have hrest := ih (fun e he => hk e (by simp [he])) (fun e he => hv e (by simp [he]))
    refine Walk.Clean.andThen (clean_single.mpr (hk e (by simp))) ?_
    cases hm : memberType s e.1.stringVal with
    | none => exact Walk.clean_stop
    | some m => exact (hv e (by simp) m hm).andThen hrest

theorem renderCalls_clean {t : ThriftType} {cv : ConstValue} (h : Fits scopes t cv) :
    (renderCalls scopes fuel t cv).Clean := by
  induction cv using ConstValue.induct generalizing t with
  | mk cv ihmap ihlist =>
    obtain ⟨vt, es, xs, str, n, d, i, e⟩ := cv
    unfold renderCalls
    cases hu : getTrueType scopes fuel t with
    | error err => exact Walk.clean_stop
    | ok u =>
      have hstep := (fits_iff ⟨fuel, hu⟩ _).mp h
      cases u with
      | baseType base bin => exact baseCalls_clean hstep
      | enum e => exact integerCalls_clean.mpr hstep
      | struct s =>
        obtain ⟨hv, hkeys, hvals⟩ := hstep
        refine Walk.Clean.andThen (clean_single.mpr hv) (renderFieldsCalls_clean hkeys ?_)
        intro e he m hm
        exact (ihmap e he).2 (hvals e he m hm)
      | map k v =>
        obtain ⟨hv, hkeys, hvals⟩ := hstep
        refine Walk.Clean.andThen (clean_single.mpr hv) (renderEntriesCalls_clean ?_ ?_)
        · exact fun e he => (ihmap e he).1 (hkeys e he)
        · exact fun e he => (ihmap e he).2 (hvals e he)
      | list elem =>
        obtain ⟨hv, helems⟩ := hstep
        refine Walk.Clean.andThen (clean_single.mpr hv) (renderElemsCalls_clean ?_)
        exact fun x hx => ihlist x hx (helems x hx)
      | set elem =>
        obtain ⟨hv, helems⟩ := hstep
        refine Walk.Clean.andThen (clean_single.mpr hv) (renderElemsCalls_clean ?_)
        exact fun x hx => ihlist x hx (helems x hx)
      | _ => exact Walk.clean_stop

/-- What a walk that came to its end found in order fits. -/
def FitsWhenDone (scopes : String → Scope) (fuel : ℕ) (cv : ConstValue) : Prop :=
  ∀ t, (renderCalls scopes fuel t cv).done = true → (renderCalls scopes fuel t cv).Clean →
    Fits scopes t cv

theorem fits_of_baseCalls {base : TBase} {bin : Bool} {cv : ConstValue}
    (hdone : (baseCalls base cv).done = true) (hclean : (baseCalls base cv).Clean) :
    fitsStep scopes (.baseType base bin) cv := by
  cases base with
  | TYPE_STRING => exact clean_single.mp hclean
  | TYPE_VOID => cases hdone
  | TYPE_DOUBLE =>
    rw [baseCalls_double] at hclean
    split at hclean
    · rename_i hint
      exact .inl hint
    · exact .inr (clean_single.mp hclean)
  | _ => exact integerCalls_clean.mp hclean

theorem fits_of_renderElemsCalls {t : ThriftType} {xs : List ConstValue}
    (ih : ∀ x ∈ xs, FitsWhenDone scopes fuel x)
    (hdone : (renderElemsCalls scopes fuel t xs).done = true)
    (hclean : (renderElemsCalls scopes fuel t xs).Clean) : ∀ x ∈ xs, Fits scopes t x := by
  induction xs with
  | nil => simp
  | cons x xs ihxs =>
    unfold renderElemsCalls at hdone hclean
    obtain ⟨hdx, hdxs⟩ := Walk.done_andThen hdone
    obtain ⟨hcx, hcxs⟩ := (Walk.clean_andThen_iff hdone).mp hclean
    rw [List.forall_mem_cons]
    exact ⟨ih x (by simp) t hdx hcx, ihxs (fun y hy => ih y (by simp [hy])) hdxs hcxs⟩

theorem fits_of_renderEntriesCalls {k v : ThriftType} {es : List (ConstValue × ConstValue)}
    (ih : ∀ e ∈ es, FitsWhenDone scopes fuel e.1 ∧ FitsWhenDone scopes fuel e.2)
    (hdone : (renderEntriesCalls scopes fuel k v es).done = true)
    (hclean : (renderEntriesCalls scopes fuel k v es).Clean) :
    ∀ e ∈ es, Fits scopes k e.1 ∧ Fits scopes v e.2 := by
  induction es with
  | nil => simp
  | cons e es ihes =>
    unfold renderEntriesCalls at hdone hclean
    obtain ⟨hdk, hdrest⟩ := Walk.done_andThen hdone
    obtain ⟨hck, hcrest⟩ := (Walk.clean_andThen_iff hdone).mp hclean
    obtain ⟨hdv, hdes⟩ := Walk.done_andThen hdrest
    obtain ⟨hcv, hces⟩ := (Walk.clean_andThen_iff hdrest).mp hcrest
    obtain ⟨ihk, ihv⟩ := ih e (by simp)
    rw [List.forall_mem_cons]
    exact ⟨⟨ihk k hdk hck, ihv v hdv hcv⟩, ihes (fun e he => ih e (by simp [he])) hdes hces⟩

theorem fits_of_renderFieldsCalls {s : TStruct} {es : List (ConstValue × ConstValue)}
    (ih : ∀ e ∈ es, FitsWhenDone scopes fuel e.2)
    (hdone : (renderFieldsCalls scopes fuel s es).done = true)
    (hclean : (renderFieldsCalls scopes fuel s es).Clean) :
    ∀ e ∈ es, e.1.valType = .CV_STRING ∧
      ∀ m, memberType s e.1.stringVal = some m → Fits scopes m e.2 := by
  induction es with
  | nil => simp
  | cons e es ihes =>
    unfold renderFieldsCalls at hdone hclean
    obtain ⟨-, hdrest⟩ := Walk.done_andThen hdone
    obtain ⟨hckey, hcrest⟩ := (Walk.clean_andThen_iff hdone).mp hclean
    cases hm : memberType s e.1.stringVal with
    | none =>
      rw [hm] at hdrest
      cases hdrest
    | some m =>
      rw [hm] at hdrest hcrest
      obtain ⟨hdv, hdes⟩ := Walk.done_andThen hdrest
      obtain ⟨hcv, hces⟩ := (Walk.clean_andThen_iff hdrest).mp hcrest
      rw [List.forall_mem_cons]
      refine ⟨⟨clean_single.mp hckey, ?_⟩, ihes (fun e he => ih e (by simp [he])) hdes hces⟩
      intro m' hm'
      obtain rfl := Option.some.inj (hm.symm.trans hm')
      exact ih e (by simp) m hdv hcv

theorem fits_of_renderCalls (cv : ConstValue) : FitsWhenDone scopes fuel cv := by
  induction cv using ConstValue.induct with
  | mk cv ihmap ihlist =>
    obtain ⟨vt, es, xs, str, n, d, i, e⟩ := cv
    intro t hdone hclean
    unfold renderCalls at hdone hclean
    cases hu : getTrueType scopes fuel t with
    | error err =>
      rw [hu] at hdone
      cases hdone
    | ok u =>
      rw [hu] at hdone hclean
      refine (fits_iff ⟨fuel, hu⟩ _).mpr ?_
      cases u with
      | baseType base bin => exact fits_of_baseCalls hdone hclean
      | enum e => exact integerCalls_clean.mp hclean
      | struct s =>
        obtain ⟨-, hdone'⟩ := Walk.done_andThen hdone
        obtain ⟨hv, hclean'⟩ := (Walk.clean_andThen_iff hdone).mp hclean
        have hes := fits_of_renderFieldsCalls (fun e he => (ihmap e he).2) hdone' hclean'
        exact ⟨clean_single.mp hv, fun e he => (hes e he).1, fun e he => (hes e he).2⟩
      | map k v =>
        obtain ⟨-, hdone'⟩ := Walk.done_andThen hdone
        obtain ⟨hv, hclean'⟩ := (Walk.clean_andThen_iff hdone).mp hclean
        have hes := fits_of_renderEntriesCalls ihmap hdone' hclean'
        exact ⟨clean_single.mp hv, fun e he => (hes e he).1, fun e he => (hes e he).2⟩
      | list elem =>
        obtain ⟨-, hdone'⟩ := Walk.done_andThen hdone
        obtain ⟨hv, hclean'⟩ := (Walk.clean_andThen_iff hdone).mp hclean
        exact ⟨clean_single.mp hv, fits_of_renderElemsCalls ihlist hdone' hclean'⟩
      | set elem =>
        obtain ⟨-, hdone'⟩ := Walk.done_andThen hdone
        obtain ⟨hv, hclean'⟩ := (Walk.clean_andThen_iff hdone).mp hclean
        exact ⟨clean_single.mp hv, fits_of_renderElemsCalls ihlist hdone' hclean'⟩
      | typedef p name t => cases hdone
      | forwardTypedef p name => cases hdone

theorem done_of {w : Walk} (h : w.done = true) (w' : Walk) : (w.andThen w').done = w'.done := by
  unfold Walk.andThen
  rw [if_pos h]

def DoneWhenRendered (scopes : String → Scope) (fuel : ℕ) (cv : ConstValue) : Prop :=
  ∀ t l, renderConstValue scopes fuel t cv = .ok l → (renderCalls scopes fuel t cv).done = true

theorem integerCalls_done {cv : ConstValue} {f : Int64 → Literal} {l : Literal}
    (h : (do pure (f (← cv.getInteger)) : Compile Literal) = .ok l) :
    (integerCalls cv).done = true := by
  obtain ⟨n, hn, -⟩ := bind_ok h
  unfold integerCalls
  rw [hn]
  rfl

theorem baseCalls_done {base : TBase} {cv : ConstValue} {l : Literal}
    (h : renderBase base cv = .ok l) : (baseCalls base cv).done = true := by
  cases base with
  | TYPE_STRING => rfl
  | TYPE_VOID => cases h
  | TYPE_DOUBLE =>
    simp only [renderBase] at h
    rw [baseCalls_double]
    split
    · rename_i hint
      rw [if_pos hint] at h
      exact integerCalls_done (f := fun n => .int n.toInt) h
    · rfl
  | TYPE_BOOL => exact integerCalls_done (f := fun n => .bool (decide (0 < n.toInt))) h
  | _ => exact integerCalls_done (f := fun n => .int n.toInt) h

theorem renderElemsCalls_done {t : ThriftType} {xs : List ConstValue} {ls : List Literal}
    (ih : ∀ x ∈ xs, DoneWhenRendered scopes fuel x) (h : renderElems scopes fuel t xs = .ok ls) :
    (renderElemsCalls scopes fuel t xs).done = true := by
  induction xs generalizing ls with
  | nil =>
    unfold renderElemsCalls
    rfl
  | cons x xs ihxs =>
    unfold renderElems at h
    obtain ⟨l, hl, h⟩ := bind_ok h
    obtain ⟨ls', hls, h⟩ := bind_ok h
    unfold renderElemsCalls
    rw [done_of (ih x (by simp) t l hl)]
    exact ihxs (fun y hy => ih y (by simp [hy])) hls

theorem renderEntriesCalls_done {k v : ThriftType} {es : List (ConstValue × ConstValue)}
    {ls : List (Literal × Literal)}
    (ih : ∀ e ∈ es, DoneWhenRendered scopes fuel e.1 ∧ DoneWhenRendered scopes fuel e.2)
    (h : renderEntries scopes fuel k v es = .ok ls) :
    (renderEntriesCalls scopes fuel k v es).done = true := by
  induction es generalizing ls with
  | nil =>
    unfold renderEntriesCalls
    rfl
  | cons e es ihes =>
    unfold renderEntries at h
    obtain ⟨a, ha, h⟩ := bind_ok h
    obtain ⟨b, hb, h⟩ := bind_ok h
    obtain ⟨ls', hls, h⟩ := bind_ok h
    obtain ⟨ihk, ihv⟩ := ih e (by simp)
    unfold renderEntriesCalls
    rw [done_of (ihk k a ha), done_of (ihv v b hb)]
    exact ihes (fun e he => ih e (by simp [he])) hls

theorem renderFieldsCalls_done {s : TStruct} {es : List (ConstValue × ConstValue)}
    {ls : List (Literal × Literal)} (ih : ∀ e ∈ es, DoneWhenRendered scopes fuel e.2)
    (h : renderFields scopes fuel s es = .ok ls) :
    (renderFieldsCalls scopes fuel s es).done = true := by
  induction es generalizing ls with
  | nil =>
    unfold renderFieldsCalls
    rfl
  | cons e es ihes =>
    unfold renderFields at h
    unfold renderFieldsCalls
    rw [done_of rfl]
    cases hm : memberType s e.1.stringVal with
    | none =>
      rw [hm] at h
      cases h
    | some m =>
      rw [hm] at h
      obtain ⟨b, hb, h⟩ := bind_ok h
      obtain ⟨ls', hls, h⟩ := bind_ok h
      change ((renderCalls scopes fuel m e.2).andThen _).done = true
      rw [done_of (ih e (by simp) m b hb)]
      exact ihes (fun e he => ih e (by simp [he])) hls

theorem renderCalls_done (cv : ConstValue) : DoneWhenRendered scopes fuel cv := by
  induction cv using ConstValue.induct with
  | mk cv ihmap ihlist =>
    obtain ⟨vt, es, xs, str, n, d, i, e⟩ := cv
    intro t l h
    unfold renderConstValue at h
    obtain ⟨u, hu, h⟩ := bind_ok h
    unfold renderCalls
    rw [hu]
    cases u with
    | baseType base bin => exact baseCalls_done h
    | enum e => exact integerCalls_done (f := fun n => .int n.toInt) h
    | struct s =>
      obtain ⟨ls, hls, -⟩ := bind_ok h
      exact (done_of rfl _).trans (renderFieldsCalls_done (fun e he => (ihmap e he).2) hls)
    | map k v =>
      obtain ⟨ls, hls, -⟩ := bind_ok h
      exact (done_of rfl _).trans (renderEntriesCalls_done ihmap hls)
    | list elem =>
      obtain ⟨ls, hls, -⟩ := bind_ok h
      exact (done_of rfl _).trans (renderElemsCalls_done ihlist hls)
    | set elem =>
      obtain ⟨ls, hls, -⟩ := bind_ok h
      exact (done_of rfl _).trans (renderElemsCalls_done ihlist hls)
    | typedef p name t => cases h
    | forwardTypedef p name => cases h

end Render

/-- What the parser builds for a literal: the members that its kind does not use
    are empty, and no enum was set. -/
inductive Parsed : ConstValue → Prop where
  | mk {cv : ConstValue} (henum : cv.tenum = none) (hmap : cv.valType ≠ .CV_MAP → cv.mapVal = [])
      (hlist : cv.valType ≠ .CV_LIST → cv.listVal = []) (hkeys : ∀ e ∈ cv.mapVal, Parsed e.1)
      (hvals : ∀ e ∈ cv.mapVal, Parsed e.2) (helems : ∀ x ∈ cv.listVal, Parsed x) : Parsed cv

/-- No struct that the type holds directly has two members of one name. -/
inductive DistinctMembers : ThriftType → Prop where
  | baseType {base : TBase} {bin : Bool} : DistinctMembers (.baseType base bin)
  | enum {e : TEnum} : DistinctMembers (.enum e)
  | typedef {p : TProgram} {name : String} {t : ThriftType} : DistinctMembers (.typedef p name t)
  | forwardTypedef {p : TProgram} {name : String} : DistinctMembers (.forwardTypedef p name)
  | list {t : ThriftType} (h : DistinctMembers t) : DistinctMembers (.list t)
  | set {t : ThriftType} (h : DistinctMembers t) : DistinctMembers (.set t)
  | map {k v : ThriftType} (hk : DistinctMembers k) (hv : DistinctMembers v) :
      DistinctMembers (.map k v)
  | struct {s : TStruct} (hnames : (s.members.map TFieldOf.name).Nodup)
      (hmembers : ∀ f ∈ s.members, DistinctMembers f.type) : DistinctMembers (.struct s)

/-- The types at which resolution looks at the value alone; enums apart. -/
def Single (t : ThriftType) : Prop :=
  match t with
  | .baseType _ _ | .typedef _ _ _ | .forwardTypedef _ _ => True
  | .struct s => s.isXception = true
  | _ => False

/-- The value of a constant of type `u` was set as `u` says, and fits type `t`. -/
def constantStep (scopes : String → Scope) (t u : ThriftType) (value : ConstValue) : Prop :=
  match u with
  | .baseType base _ =>
    match base with
    | .TYPE_STRING => value.valType = .CV_STRING ∧ Fits scopes t { valType := .CV_STRING }
    | .TYPE_DOUBLE => value.valType = .CV_DOUBLE ∧ Fits scopes t { valType := .CV_DOUBLE }
    | .TYPE_VOID => False
    | _ => Integral value ∧ Fits scopes t { valType := .CV_INTEGER }
  | .map _ _ => value.valType = .CV_MAP ∧ Fits scopes t value
  | .list _ => value.valType = .CV_LIST ∧ Fits scopes t value
  | _ => False

/-- The constant can stand at type `t` in place of its identifier. -/
def FitsConstant (scopes scopes' : String → Scope) (t : ThriftType) (c : TConst) : Prop :=
  ∃ u, Expands scopes c.type u ∧ constantStep scopes' t u c.value

/-- The literals that are read as what they are, declared at a type in a scope;
    `scopes` are the scopes then and `scopes'` those at the end. -/
inductive FitsLiteral (scopes scopes' : String → Scope) (scope : Scope) :
    ThriftType → ConstValue → Prop where
  | map {k v : ThriftType} {cv : ConstValue} (hv : cv.valType = .CV_MAP)
      (hkeys : ∀ e ∈ cv.mapVal, FitsLiteral scopes scopes' scope k e.1)
      (hvals : ∀ e ∈ cv.mapVal, FitsLiteral scopes scopes' scope v e.2) :
      FitsLiteral scopes scopes' scope (.map k v) cv
  | list {t : ThriftType} {cv : ConstValue} (hv : cv.valType = .CV_LIST)
      (helems : ∀ x ∈ cv.listVal, FitsLiteral scopes scopes' scope t x) :
      FitsLiteral scopes scopes' scope (.list t) cv
  | set {t : ThriftType} {cv : ConstValue} (hv : cv.valType = .CV_LIST)
      (helems : ∀ x ∈ cv.listVal, FitsLiteral scopes scopes' scope t x) :
      FitsLiteral scopes scopes' scope (.set t) cv
  | struct {s : TStruct} {cv : ConstValue} (hs : s.isXception = false) (hv : cv.valType = .CV_MAP)
      (hkeys : ∀ e ∈ cv.mapVal, e.1.valType = .CV_STRING)
      (hvals : ∀ e ∈ cv.mapVal, ∀ m, memberType s e.1.stringVal = some m →
        FitsLiteral scopes scopes' scope m e.2) : FitsLiteral scopes scopes' scope (.struct s) cv
  | enum {e : TEnum} {cv : ConstValue}
      (hv : cv.valType = .CV_IDENTIFIER ∨ cv.valType = .CV_INTEGER) :
      FitsLiteral scopes scopes' scope (.enum e) cv
  | plain {t : ThriftType} {cv : ConstValue} (ht : Single t) (hv : cv.valType ≠ .CV_IDENTIFIER)
      (hfits : Fits scopes' t cv) : FitsLiteral scopes scopes' scope t cv
  | constant {t : ThriftType} {cv : ConstValue} {c : TConst} (ht : Single t)
      (hv : cv.valType = .CV_IDENTIFIER) (hc : scope.getConstant cv.identifierVal = some c)
      (hfits : FitsConstant scopes scopes' t c) : FitsLiteral scopes scopes' scope t cv

section Literals
variable {scopes scopes' : String → Scope} {fuel : ℕ} {scope : Scope}

theorem fits_congr {t : ThriftType} {cv cv' : ConstValue} (h : Fits scopes t cv)
    (hkind : cv'.valType = cv.valType) (henum : cv.valType = .CV_IDENTIFIER → cv'.tenum = cv.tenum)
    (hmap : cv.valType = .CV_MAP → cv'.mapVal = cv.mapVal)
    (hlist : cv.valType = .CV_LIST → cv'.listVal = cv.listVal) : Fits scopes t cv' := by
  have hint : Integral cv → Integral cv' := by
    rintro (hv | ⟨hv, he⟩)
    · exact .inl (hkind.trans hv)
    · have hsome : cv'.tenum.isSome = true := by
        rw [henum hv]
        exact he
      exact .inr ⟨hkind.trans hv, hsome⟩
  cases h with
  | string h hv => exact .string h (hkind.trans hv)
  | integer h hbase hv => exact .integer h hbase (hint hv)
  | double h hv => exact .double h (hkind ▸ hv)
  | enum h hv => exact .enum h (hint hv)
  | struct h hv hkeys hvals =>
    have hes := hmap hv
    exact .struct h (hkind.trans hv) (hes ▸ hkeys) (hes ▸ hvals)
  | map h hv hkeys hvals =>
    have hes := hmap hv
    exact .map h (hkind.trans hv) (hes ▸ hkeys) (hes ▸ hvals)
  | list h hv helems =>
    have hxs := hlist hv
    exact .list h (hkind.trans hv) (hxs ▸ helems)
  | set h hv helems =>
    have hxs := hlist hv
    exact .set h (hkind.trans hv) (hxs ▸ helems)

theorem memberType_of_mem {s : TStruct} {f : TField}
    (hnames : (s.members.map TFieldOf.name).Nodup) (hf : f ∈ s.members) :
    memberType s f.name = some f.type := by
  have hkeep : ∀ (fs : List TField) (found : Option ThriftType), (∀ g ∈ fs, g.name ≠ f.name) →
      fs.foldl (fun found g => if g.name = f.name then some g.type else found) found = found := by
    intro fs
    induction fs with
    | nil => exact fun found _ => rfl
    | cons g fs ih =>
      intro found hne
      rw [List.foldl_cons, if_neg (hne g (by simp))]
      exact ih found fun g' hg' => hne g' (by simp [hg'])
  unfold memberType
  obtain ⟨before, after, hsplit⟩ := List.append_of_mem hf
  rw [hsplit] at hnames ⊢
  rw [List.map_append, List.map_cons] at hnames
  rw [List.foldl_append, List.foldl_cons, if_pos rfl]
  refine hkeep after _ fun g hg hname => ?_
  have htail := (List.nodup_append.mp hnames).2.1
  exact (List.nodup_cons.mp htail).1 (hname ▸ List.mem_map_of_mem hg)

theorem memberType_of_getFieldByName {s : TStruct} {name : String} {f : TField}
    (hnames : (s.members.map TFieldOf.name).Nodup) (h : s.getFieldByName name = some f) :
    f ∈ s.members ∧ memberType s name = some f.type := by
  have hmem : f ∈ s.members := (sortedMembers_perm s).mem_iff.mp (List.mem_of_find?_eq_some h)
  have hname : f.name = name := by simpa using List.find?_some h
  exact ⟨hmem, hname ▸ memberType_of_mem hnames hmem⟩

theorem fitsConstant_iff {t u : ThriftType} {c : TConst} (h : Expands scopes c.type u) :
    FitsConstant scopes scopes' t c ↔ constantStep scopes' t u c.value := by
  constructor
  · rintro ⟨u', hu', hfits⟩
    obtain rfl := h.unique hu'
    exact hfits
  · intro hfits
    exact ⟨u, h, hfits⟩

theorem fits_bare {t : ThriftType} {cv : ConstValue} {kind : CV} (hkind : cv.valType = kind)
    (hbare : kind = .CV_INTEGER ∨ kind = .CV_STRING ∨ kind = .CV_DOUBLE) :
    Fits scopes' t cv ↔ Fits scopes' t { valType := kind } := by
  have hne : kind ≠ .CV_IDENTIFIER ∧ kind ≠ .CV_MAP ∧ kind ≠ .CV_LIST := by
    rcases hbare with rfl | rfl | rfl <;> decide
  constructor
  · intro h
    exact fits_congr h hkind.symm (fun hk => absurd (hkind.symm.trans hk) hne.1)
      (fun hk => absurd (hkind.symm.trans hk) hne.2.1)
      (fun hk => absurd (hkind.symm.trans hk) hne.2.2)
  · intro h
    exact fits_congr h hkind (fun hk => absurd hk hne.1) (fun hk => absurd hk hne.2.1)
      (fun hk => absurd hk hne.2.2)

theorem identifier_iff {t : ThriftType} {cv cv' : ConstValue} {c : TConst} (hcv : Parsed cv)
    (hv : cv.valType = .CV_IDENTIFIER) (hc : scope.getConstant cv.identifierVal = some c)
    (h : resolveIdentifier scopes fuel scope cv = .ok cv') :
    FitsConstant scopes scopes' t c ↔
      Fits scopes' t cv' ∧ ∀ call ∈ identifierCalls scopes fuel scope cv, call.Matches := by
  obtain ⟨henum, hmap, hlist, -, -, -⟩ := hcv
  have hes : cv.mapVal = [] := hmap (by rw [hv]; decide)
  have hxs : cv.listVal = [] := hlist (by rw [hv]; decide)
  unfold resolveIdentifier at h
  rw [hc] at h
  obtain ⟨u, hu, h⟩ := bind_ok h
  rw [fitsConstant_iff ⟨fuel, hu⟩]
  simp only [identifierCalls, hc, hu]
  -- a constant of another type is not put in the identifier's place
  have hnone : cv = cv' →
      (False ↔ Fits scopes' t cv' ∧ ∀ call ∈ ([] : List Call), call.Matches) := by
    intro heq
    exact ⟨False.elim, fun hfits => not_fits_identifier hv henum (heq ▸ hfits.1)⟩
  cases u with
  | baseType base bin =>
    have hint : (do pure (cv.setInteger (← c.value.getInteger)) : Compile ConstValue) = .ok cv' →
        ((Integral c.value ∧ Fits scopes' t { valType := .CV_INTEGER }) ↔ Fits scopes' t cv' ∧
          ∀ x ∈ [call .get_integer c.value], x.Matches) := by
      intro h
      obtain ⟨n, -, h⟩ := bind_ok h
      have hkind : cv'.valType = .CV_INTEGER := by
        rw [← Except.ok.inj h]
        rfl
      rw [fits_bare hkind (.inl rfl), List.forall_mem_singleton]
      exact And.comm
    cases base with
    | TYPE_VOID => cases h
    | TYPE_STRING =>
      have hkind : cv'.valType = .CV_STRING := by
        rw [← Except.ok.inj h]
        rfl
      rw [fits_bare hkind (.inr (.inl rfl))]
      simp only [List.forall_mem_singleton]
      exact And.comm
    | TYPE_DOUBLE =>
      have hkind : cv'.valType = .CV_DOUBLE := by
        rw [← Except.ok.inj h]
        rfl
      rw [fits_bare hkind (.inr (.inr rfl))]
      simp only [List.forall_mem_singleton]
      exact And.comm
    | _ => exact hint h
  | map k v =>
    have heq := Except.ok.inj h
    rw [hes, List.nil_append] at heq
    simp only [List.forall_mem_singleton]
    rw [← heq]
    constructor
    · rintro ⟨hkind, hfits⟩
      exact ⟨fits_congr hfits hkind.symm (fun hk => absurd (hkind.symm.trans hk) (by decide))
        (fun _ => rfl) (fun hk => absurd (hkind.symm.trans hk) (by decide)), hkind⟩
    · rintro ⟨hfits, hkind⟩
      exact ⟨hkind, fits_congr hfits hkind (fun hk => absurd hk (by simp)) (fun _ => rfl)
        (fun hk => absurd hk (by simp))⟩
  | list elem =>
    have heq := Except.ok.inj h
    rw [hxs, List.nil_append] at heq
    simp only [List.forall_mem_singleton]
    rw [← heq]
    constructor
    · rintro ⟨hkind, hfits⟩
      exact ⟨fits_congr hfits hkind.symm (fun hk => absurd (hkind.symm.trans hk) (by decide))
        (fun hk => absurd (hkind.symm.trans hk) (by decide)) (fun _ => rfl), hkind⟩
    · rintro ⟨hfits, hkind⟩
      exact ⟨hkind, fits_congr hfits hkind (fun hk => absurd hk (by simp))
        (fun hk => absurd hk (by simp)) (fun _ => rfl)⟩
  | _ => exact hnone (Except.ok.inj h)

theorem resolve_single {t : ThriftType} (ht : Single t) (cv : ConstValue) :
    resolveConstValue scopes fuel scope t cv = resolveSingle scopes fuel scope t cv ∧
      resolveCalls scopes fuel scope t cv = singleCalls scopes fuel scope t cv := by
  obtain ⟨vt, es, xs, str, n, d, i, e⟩ := cv
  unfold resolveConstValue resolveCalls
  cases t with
  | baseType => exact ⟨rfl, rfl⟩
  | typedef => exact ⟨rfl, rfl⟩
  | forwardTypedef => exact ⟨rfl, rfl⟩
  | struct s => exact ⟨if_pos ht, if_pos ht⟩
  | enum => exact ht.elim
  | list => exact ht.elim
  | set => exact ht.elim
  | map => exact ht.elim

theorem resolveSingle_single {t : ThriftType} (ht : Single t) (cv : ConstValue) :
    resolveSingle scopes fuel scope t cv =
        (if cv.valType = .CV_IDENTIFIER then resolveIdentifier scopes fuel scope cv
          else pure cv) ∧
      singleCalls scopes fuel scope t cv =
        if cv.valType = .CV_IDENTIFIER then identifierCalls scopes fuel scope cv else [] := by
  cases t with
  | enum => exact ht.elim
  | _ => exact ⟨rfl, rfl⟩

theorem single_iff {t : ThriftType} {cv cv' : ConstValue} (ht : Single t) (hcv : Parsed cv)
    (h : resolveConstValue scopes fuel scope t cv = .ok cv') :
    FitsLiteral scopes scopes' scope t cv ↔
      Fits scopes' t cv' ∧ ∀ c ∈ resolveCalls scopes fuel scope t cv, c.Matches := by
  rw [(resolve_single ht cv).1, (resolveSingle_single ht cv).1] at h
  rw [(resolve_single ht cv).2, (resolveSingle_single ht cv).2]
  by_cases hv : cv.valType = .CV_IDENTIFIER
  · rw [if_pos hv] at h
    rw [if_pos hv]
    cases hc : scope.getConstant cv.identifierVal with
    | none =>
      unfold resolveIdentifier at h
      rw [hc] at h
      cases h
    | some c =>
      rw [← identifier_iff hcv hv hc h]
      constructor
      · intro hfits
        cases hfits with
        | plain _ hne _ => exact absurd hv hne
        | constant _ _ hc' hfits =>
          obtain rfl := Option.some.inj (hc.symm.trans hc')
          exact hfits
        | struct hs => exact absurd ht (by simp [Single, hs])
        | _ => exact ht.elim
      · exact fun hfits => .constant ht hv hc hfits
  · rw [if_neg hv] at h
    rw [if_neg hv, ← Except.ok.inj h]
    constructor
    · intro hfits
      cases hfits with
      | plain _ _ hfits => exact ⟨hfits, by simp⟩
      | constant _ hid => exact absurd hid hv
      | struct hs => exact absurd ht (by simp [Single, hs])
      | _ => exact ht.elim
    · exact fun hfits => .plain ht hv hfits.1

theorem enum_iff {e : TEnum} {cv cv' : ConstValue}
    (h : resolveConstValue scopes fuel scope (.enum e) cv = .ok cv') :
    FitsLiteral scopes scopes' scope (.enum e) cv ↔
      Fits scopes' (.enum e) cv' ∧
        ∀ c ∈ resolveCalls scopes fuel scope (.enum e) cv, c.Matches := by
  obtain ⟨vt, es, xs, str, n, d, i, old⟩ := cv
  have hself : Expands scopes' (.enum e) (.enum e) := expands_self rfl
  have hliteral : FitsLiteral scopes scopes' scope (.enum e) ⟨vt, es, xs, str, n, d, i, old⟩ ↔
      vt = .CV_IDENTIFIER ∨ vt = .CV_INTEGER := by
    constructor
    · intro hfits
      cases hfits with
      | enum hv => exact hv
      | plain ht => exact ht.elim
      | constant ht => exact ht.elim
    · exact fun hv => .enum hv
  rw [hliteral, fits_iff hself]
  unfold resolveConstValue resolveSingle at h
  unfold resolveCalls singleCalls
  by_cases hv : vt = .CV_IDENTIFIER
  · subst hv
    rw [if_pos rfl] at h
    rw [if_pos rfl, ← Except.ok.inj h]
    have hint : Integral (ConstValue.setEnum ⟨.CV_IDENTIFIER, es, xs, str, n, d, i, old⟩ e) :=
      .inr ⟨rfl, rfl⟩
    exact ⟨fun _ => ⟨hint, by simp⟩, fun _ => .inl rfl⟩
  · rw [if_neg hv] at h
    rw [if_neg hv]
    obtain ⟨val, -, h⟩ := bind_ok h
    have hint : fitsStep scopes' (.enum e) cv' := by
      cases hname : e.getConstantByValue val.toInt with
      | none =>
        rw [hname] at h
        cases h
      | some v =>
        rw [hname] at h
        rw [← Except.ok.inj h]
        exact .inr ⟨rfl, rfl⟩
    simp only [List.forall_mem_singleton]
    constructor
    · exact fun hkind => ⟨hint, .inl (hkind.resolve_left hv)⟩
    · rintro ⟨-, hkind | ⟨hid, -⟩⟩
      · exact .inr hkind
      · exact absurd hid hv

/-- The literals that fit exactly when what they resolve to fits and was reached
    by matching calls. -/
def ResolvesFitting (scopes scopes' : String → Scope) (fuel : ℕ) (scope : Scope)
    (cv : ConstValue) : Prop :=
  ∀ t cv', Parsed cv → DistinctMembers t → resolveConstValue scopes fuel scope t cv = .ok cv' →
    (FitsLiteral scopes scopes' scope t cv ↔
      Fits scopes' t cv' ∧ ∀ c ∈ resolveCalls scopes fuel scope t cv, c.Matches)

theorem resolveElems_fitting {t : ThriftType} {xs xs' : List ConstValue}
    (ih : ∀ x ∈ xs, ResolvesFitting scopes scopes' fuel scope x) (hxs : ∀ x ∈ xs, Parsed x)
    (ht : DistinctMembers t) (h : resolveElems scopes fuel scope t xs = .ok xs') :
    (∀ x ∈ xs, FitsLiteral scopes scopes' scope t x) ↔
      (∀ x ∈ xs', Fits scopes' t x) ∧
        ∀ c ∈ resolveElemsCalls scopes fuel scope t xs, c.Matches := by
  induction xs generalizing xs' with
  | nil =>
    unfold resolveElems at h
    unfold resolveElemsCalls
    rw [← Except.ok.inj h]
    simp
  | cons x xs ihxs =>
    unfold resolveElems at h
    obtain ⟨x', hx, h⟩ := bind_ok h
    obtain ⟨xs'', hrest, h⟩ := bind_ok h
    rw [← Except.ok.inj h]
    unfold resolveElemsCalls
    have hhead := ih x (by simp) t x' (hxs x (by simp)) ht hx
    have htail := ihxs (fun y hy => ih y (by simp [hy])) (fun y hy => hxs y (by simp [hy])) hrest
    rw [List.forall_mem_cons, List.forall_mem_cons, List.forall_mem_append, hhead, htail]
    exact and_and_and_comm

theorem resolveEntries_fitting {k v : ThriftType} {es es' : List (ConstValue × ConstValue)}
    (ih : ∀ e ∈ es, ResolvesFitting scopes scopes' fuel scope e.1 ∧
      ResolvesFitting scopes scopes' fuel scope e.2)
    (hes : ∀ e ∈ es, Parsed e.1 ∧ Parsed e.2) (hk : DistinctMembers k) (hv : DistinctMembers v)
    (h : resolveEntries scopes fuel scope k v es = .ok es') :
    (∀ e ∈ es, FitsLiteral scopes scopes' scope k e.1 ∧ FitsLiteral scopes scopes' scope v e.2) ↔
      (∀ e ∈ es', Fits scopes' k e.1 ∧ Fits scopes' v e.2) ∧
        ∀ c ∈ resolveEntriesCalls scopes fuel scope k v es, c.Matches := by
  induction es generalizing es' with
  | nil =>
    unfold resolveEntries at h
    unfold resolveEntriesCalls
    rw [← Except.ok.inj h]
    simp
  | cons e es ihes =>
    obtain ⟨x, y⟩ := e
    unfold resolveEntries at h
    obtain ⟨x', hx, h⟩ := bind_ok h
    obtain ⟨y', hy, h⟩ := bind_ok h
    obtain ⟨es'', hrest, h⟩ := bind_ok h
    rw [← Except.ok.inj h]
    unfold resolveEntriesCalls
    obtain ⟨ihx, ihy⟩ := ih (x, y) (by simp)
    obtain ⟨hpx, hpy⟩ := hes (x, y) (by simp)
    have hkey := ihx k x' hpx hk hx
    have hval := ihy v y' hpy hv hy
    have htail := ihes (fun e he => ih e (by simp [he])) (fun e he => hes e (by simp [he])) hrest
    rw [List.forall_mem_cons, List.forall_mem_cons, List.forall_mem_append, List.forall_mem_append,
      htail]
    dsimp only
    rw [hkey, hval]
    constructor
    · rintro ⟨⟨⟨hfx, hcx⟩, hfy, hcy⟩, hfs, hcs⟩
      exact ⟨⟨⟨hfx, hfy⟩, hfs⟩, ⟨hcx, hcy⟩, hcs⟩
    · rintro ⟨⟨⟨hfx, hfy⟩, hfs⟩, ⟨hcx, hcy⟩, hcs⟩
      exact ⟨⟨⟨hfx, hcx⟩, hfy, hcy⟩, hfs, hcs⟩

theorem resolveFields_fitting {s : TStruct} {es es' : List (ConstValue × ConstValue)}
    (ih : ∀ e ∈ es, ResolvesFitting scopes scopes' fuel scope e.2) (hes : ∀ e ∈ es, Parsed e.2)
    (hnames : (s.members.map TFieldOf.name).Nodup)
    (hmembers : ∀ f ∈ s.members, DistinctMembers f.type)
    (h : resolveFields scopes fuel scope s es = .ok es') :
    (∀ e ∈ es, e.1.valType = .CV_STRING ∧ ∀ m, memberType s e.1.stringVal = some m →
        FitsLiteral scopes scopes' scope m e.2) ↔
      (∀ e ∈ es', e.1.valType = .CV_STRING ∧ ∀ m, memberType s e.1.stringVal = some m →
          Fits scopes' m e.2) ∧
        ∀ c ∈ resolveFieldsCalls scopes fuel scope s es, c.Matches := by
  induction es generalizing es' with
  | nil =>
    unfold resolveFields at h
    unfold resolveFieldsCalls
    rw [← Except.ok.inj h]
    simp
  | cons e es ihes =>
    obtain ⟨x, y⟩ := e
    unfold resolveFields at h
    unfold resolveFieldsCalls
    cases hfield : s.getFieldByName x.stringVal with
    | none =>
      rw [hfield] at h
      cases h
    | some f =>
      rw [hfield] at h
      obtain ⟨y', hy, h⟩ := bind_ok h
      obtain ⟨es'', hrest, h⟩ := bind_ok h
      rw [← Except.ok.inj h]
      obtain ⟨hf, hm⟩ := memberType_of_getFieldByName hnames hfield
      have hval := ih (x, y) (by simp) f.type y' (hes (x, y) (by simp)) (hmembers f hf) hy
      have htail := ihes (fun e he => ih e (by simp [he])) (fun e he => hes e (by simp [he])) hrest
      have hkey : (call .get_string x).Matches ↔ x.valType = .CV_STRING := Iff.rfl
      rw [List.forall_mem_cons, List.forall_mem_cons, List.forall_mem_cons,
        List.forall_mem_append, htail, hkey]
      simp only [hm, Option.some.injEq, forall_eq']
      rw [hval]
      constructor
      · rintro ⟨⟨hx, hfy, hcy⟩, hfs, hcs⟩
        exact ⟨⟨⟨hx, hfy⟩, hfs⟩, hx, hcy, hcs⟩
      · rintro ⟨⟨⟨hx, hfy⟩, hfs⟩, -, hcy, hcs⟩
        exact ⟨⟨hx, hfy, hcy⟩, hfs, hcs⟩

theorem fitsLiteral_struct_iff {s : TStruct} {cv : ConstValue} (hs : s.isXception = false) :
    FitsLiteral scopes scopes' scope (.struct s) cv ↔
      cv.valType = .CV_MAP ∧ ∀ e ∈ cv.mapVal, e.1.valType = .CV_STRING ∧
        ∀ m, memberType s e.1.stringVal = some m → FitsLiteral scopes scopes' scope m e.2 := by
  have hnot : ¬ Single (.struct s) := by simp [Single, hs]
  constructor
  · intro h
    cases h with
    | struct _ hv hkeys hvals => exact ⟨hv, fun e he => ⟨hkeys e he, hvals e he⟩⟩
    | plain ht => exact absurd ht hnot
    | constant ht => exact absurd ht hnot
  · rintro ⟨hv, hes⟩
    exact .struct hs hv (fun e he => (hes e he).1) fun e he => (hes e he).2

theorem fitsLiteral_map_iff {k v : ThriftType} {cv : ConstValue} :
    FitsLiteral scopes scopes' scope (.map k v) cv ↔ cv.valType = .CV_MAP ∧
      ∀ e ∈ cv.mapVal, FitsLiteral scopes scopes' scope k e.1 ∧
        FitsLiteral scopes scopes' scope v e.2 := by
  constructor
  · intro h
    cases h with
    | map hv hkeys hvals => exact ⟨hv, fun e he => ⟨hkeys e he, hvals e he⟩⟩
    | plain ht => exact ht.elim
    | constant ht => exact ht.elim
  · rintro ⟨hv, hes⟩
    exact .map hv (fun e he => (hes e he).1) fun e he => (hes e he).2

theorem fitsLiteral_list_iff {t : ThriftType} {cv : ConstValue} :
    FitsLiteral scopes scopes' scope (.list t) cv ↔ cv.valType = .CV_LIST ∧
      ∀ x ∈ cv.listVal, FitsLiteral scopes scopes' scope t x := by
  constructor
  · intro h
    cases h with
    | list hv helems => exact ⟨hv, helems⟩
    | plain ht => exact ht.elim
    | constant ht => exact ht.elim
  · exact fun h => .list h.1 h.2

theorem fitsLiteral_set_iff {t : ThriftType} {cv : ConstValue} :
    FitsLiteral scopes scopes' scope (.set t) cv ↔ cv.valType = .CV_LIST ∧
      ∀ x ∈ cv.listVal, FitsLiteral scopes scopes' scope t x := by
  constructor
  · intro h
    cases h with
    | set hv helems => exact ⟨hv, helems⟩
    | plain ht => exact ht.elim
    | constant ht => exact ht.elim
  · exact fun h => .set h.1 h.2

theorem container_iff {kind : Prop} {literal fits : Prop} {c : Call} {cs : List Call}
    (hc : c.Matches ↔ kind) (h : literal ↔ fits ∧ ∀ c ∈ cs, c.Matches) :
    (kind ∧ literal) ↔ (kind ∧ fits) ∧ ∀ x ∈ c :: cs, x.Matches := by
  rw [List.forall_mem_cons, hc, h]
  constructor
  · rintro ⟨hkind, hfits, hcs⟩
    exact ⟨⟨hkind, hfits⟩, hkind, hcs⟩
  · rintro ⟨⟨hkind, hfits⟩, -, hcs⟩
    exact ⟨hkind, hfits, hcs⟩

theorem resolveConstValue_fitting (cv : ConstValue) :
    ResolvesFitting scopes scopes' fuel scope cv := by
  induction cv using ConstValue.induct with
  | mk cv ihmap ihlist =>
    intro t cv' hcv hdistinct h
    obtain ⟨-, -, -, hpk, hpv, hpx⟩ := id hcv
    cases hdistinct with
    | baseType => exact single_iff trivial hcv h
    | typedef => exact single_iff trivial hcv h
    | forwardTypedef => exact single_iff trivial hcv h
    | enum => exact enum_iff h
    | @list elem helem =>
      obtain ⟨vt, es, xs, str, n, d, i, e⟩ := cv
      unfold resolveConstValue at h
      obtain ⟨xs', hxs, h⟩ := bind_ok h
      rw [← Except.ok.inj h, fitsLiteral_list_iff, fits_iff (expands_self rfl)]
      unfold resolveCalls
      exact container_iff Iff.rfl (resolveElems_fitting ihlist hpx helem hxs)
    | @set elem helem =>
      obtain ⟨vt, es, xs, str, n, d, i, e⟩ := cv
      unfold resolveConstValue at h
      obtain ⟨xs', hxs, h⟩ := bind_ok h
      rw [← Except.ok.inj h, fitsLiteral_set_iff, fits_iff (expands_self rfl)]
      unfold resolveCalls
      exact container_iff Iff.rfl (resolveElems_fitting ihlist hpx helem hxs)
    | @map k v hk hv =>
      obtain ⟨vt, es, xs, str, n, d, i, e⟩ := cv
      unfold resolveConstValue at h
      obtain ⟨es', hes, h⟩ := bind_ok h
      have hentries := resolveEntries_fitting ihmap (fun e he => ⟨hpk e he, hpv e he⟩) hk hv hes
      rw [← Except.ok.inj h, fitsLiteral_map_iff, fits_iff (expands_self rfl)]
      unfold resolveCalls
      refine container_iff Iff.rfl (hentries.trans (and_congr_left fun _ => ?_))
      exact ⟨fun h => ⟨fun e he => (h e he).1, fun e he => (h e he).2⟩,
        fun h e he => ⟨h.1 e he, h.2 e he⟩⟩
    | @struct s hnames hmembers =>
      cases hs : s.isXception with
      | true => exact single_iff hs hcv h
      | false =>
        obtain ⟨vt, es, xs, str, n, d, i, e⟩ := cv
        unfold resolveConstValue at h
        simp only [hs, Bool.false_eq_true, if_false] at h
        obtain ⟨es', hes, h⟩ := bind_ok h
        have hfields := resolveFields_fitting (fun e he => (ihmap e he).2) hpv hnames hmembers hes
        rw [← Except.ok.inj h, fitsLiteral_struct_iff hs, fits_iff (expands_self rfl)]
        unfold resolveCalls
        simp only [hs, Bool.false_eq_true, if_false]
        refine container_iff Iff.rfl (hfields.trans (and_congr_left fun _ => ?_))
        exact ⟨fun h => ⟨fun e he => (h e he).1, fun e he => (h e he).2⟩,
          fun h e he => ⟨h.1 e he, h.2 e he⟩⟩

theorem validateElemsCalls_match {t : ThriftType} {xs : List ConstValue}
    (h : ∀ x ∈ xs, ∀ c ∈ validateCalls t x, c.Matches) :
    ∀ c ∈ validateElemsCalls t xs, c.Matches := by
  induction xs with
  | nil =>
    unfold validateElemsCalls
    simp
  | cons x xs ih =>
    unfold validateElemsCalls
    rw [List.forall_mem_append]
    exact ⟨h x (by simp), ih fun y hy => h y (by simp [hy])⟩

theorem validateEntriesCalls_match {k v : ThriftType} {es : List (ConstValue × ConstValue)}
    (hk : ∀ e ∈ es, ∀ c ∈ validateCalls k e.1, c.Matches)
    (hv : ∀ e ∈ es, ∀ c ∈ validateCalls v e.2, c.Matches) :
    ∀ c ∈ validateEntriesCalls k v es, c.Matches := by
  induction es with
  | nil =>
    unfold validateEntriesCalls
    simp
  | cons e es ih =>
    unfold validateEntriesCalls
    rw [List.forall_mem_append, List.forall_mem_append]
    exact ⟨⟨hk e (by simp), hv e (by simp)⟩,
      ih (fun e he => hk e (by simp [he])) fun e he => hv e (by simp [he])⟩

theorem validateFieldsCalls_match {s : TStruct} {es : List (ConstValue × ConstValue)}
    (hk : ∀ e ∈ es, e.1.valType = .CV_STRING)
    (hv : ∀ e ∈ es, ∀ m, memberType s e.1.stringVal = some m →
      ∀ c ∈ validateCalls m e.2, c.Matches) :
    ∀ c ∈ validateFieldsCalls s es, c.Matches := by
  induction es with
  | nil =>
    unfold validateFieldsCalls
    simp
  | cons e es ih =>
    unfold validateFieldsCalls
    rw [List.forall_mem_cons]
    refine ⟨hk e (by simp), ?_⟩
    cases hm : memberType s e.1.stringVal with
    | none => simp
    | some m =>
      simp only
      rw [List.forall_mem_append]
      exact ⟨hv e (by simp) m hm,
        ih (fun e he => hk e (by simp [he])) fun e he => hv e (by simp [he])⟩

/-- Validation stops at a typedef, so it reads no more than rendering does. -/
theorem validateCalls_match {t : ThriftType} {cv : ConstValue} (h : Fits scopes t cv) :
    ∀ c ∈ validateCalls t cv, c.Matches := by
  induction cv using ConstValue.induct generalizing t with
  | mk cv ihmap ihlist =>
    obtain ⟨vt, es, xs, str, n, d, i, e⟩ := cv
    unfold validateCalls
    cases t with
    | struct s =>
      obtain ⟨hv, hkeys, hvals⟩ := (fits_iff (expands_self rfl) _).mp h
      rw [List.forall_mem_cons]
      refine ⟨hv, validateFieldsCalls_match hkeys fun e he m hm => ?_⟩
      exact (ihmap e he).2 (hvals e he m hm)
    | map k v =>
      obtain ⟨hv, hkeys, hvals⟩ := (fits_iff (expands_self rfl) _).mp h
      rw [List.forall_mem_cons]
      exact ⟨hv, validateEntriesCalls_match (fun e he => (ihmap e he).1 (hkeys e he))
        fun e he => (ihmap e he).2 (hvals e he)⟩
    | list elem =>
      obtain ⟨hv, helems⟩ := (fits_iff (expands_self rfl) _).mp h
      rw [List.forall_mem_cons]
      exact ⟨hv, validateElemsCalls_match fun x hx => ihlist x hx (helems x hx)⟩
    | set elem =>
      obtain ⟨hv, helems⟩ := (fits_iff (expands_self rfl) _).mp h
      rw [List.forall_mem_cons]
      exact ⟨hv, validateElemsCalls_match fun x hx => ihlist x hx (helems x hx)⟩
    | _ => simp

end Literals

/-- Every call of resolving the literal `cv` at type `t`, of validating what it
    resolved to and of rendering that at type `u` matches. -/
def ReadsMatch (scopes scopes' : String → Scope) (fuel fuel' : ℕ) (scope : Scope)
    (t u : ThriftType) (cv cv' : ConstValue) : Prop :=
  (∀ c ∈ resolveCalls scopes fuel scope t cv, c.Matches) ∧
    (∀ c ∈ validateCalls t cv', c.Matches) ∧ (renderCalls scopes' fuel' u cv').Clean

/-- A constant is rendered at its declared type, a default at the type that this
    expands to. -/
theorem readsMatch_iff_fitsLiteral {scopes scopes' : String → Scope} {fuel fuel' : ℕ}
    {scope : Scope} {t u : ThriftType} {cv cv' : ConstValue} (hcv : Parsed cv)
    (ht : DistinctMembers t) (hu : u = t ∨ Expands scopes' t u)
    (hresolve : resolveConstValue scopes fuel scope t cv = .ok cv') :
    (FitsLiteral scopes scopes' scope t cv →
        ReadsMatch scopes scopes' fuel fuel' scope t u cv cv') ∧
      ∀ l, renderConstValue scopes' fuel' u cv' = .ok l →
        (ReadsMatch scopes scopes' fuel fuel' scope t u cv cv' ↔
          FitsLiteral scopes scopes' scope t cv) := by
  have hrendered : Fits scopes' u cv' ↔ Fits scopes' t cv' := by
    rcases hu with rfl | hu
    · rfl
    · obtain ⟨fuel, htrue⟩ := hu
      rw [fits_iff (expands_self (getTrueType_getType htrue)), fits_iff ⟨fuel, htrue⟩]
  have hfitting : ResolvesFitting scopes scopes' fuel scope cv := resolveConstValue_fitting cv
  have hliteral := hfitting t cv' hcv ht hresolve
  have hreads : FitsLiteral scopes scopes' scope t cv →
      ReadsMatch scopes scopes' fuel fuel' scope t u cv cv' := by
    intro h
    obtain ⟨hfits, hcalls⟩ := hliteral.mp h
    exact ⟨hcalls, validateCalls_match hfits, renderCalls_clean (hrendered.mpr hfits)⟩
  refine ⟨hreads, fun l hl => ⟨fun h => ?_, hreads⟩⟩
  obtain ⟨hcalls, -, hclean⟩ := h
  have hdone := renderCalls_done cv' u l hl
  exact hliteral.mpr ⟨hrendered.mp (fits_of_renderCalls cv' u hdone hclean), hcalls⟩

section Examples

def i32List : ThriftType := .list (.baseType .TYPE_I32 false)

def five : ConstValue := { valType := .CV_INTEGER, intVal := 5 }

def listOfFive : ConstValue := { valType := .CV_LIST, listVal := [five] }

theorem parsed_five : Parsed five :=
  .mk rfl (fun _ => rfl) (fun _ => rfl) (fun _ he => absurd he List.not_mem_nil)
    (fun _ he => absurd he List.not_mem_nil) fun _ hx => absurd hx List.not_mem_nil

theorem parsed_listOfFive : Parsed listOfFive := by
  refine .mk rfl (fun _ => rfl) (fun h => absurd rfl h) ?_ ?_ ?_
  · exact fun _ he => absurd he List.not_mem_nil
  · exact fun _ he => absurd he List.not_mem_nil
  · intro x hx
    rw [List.mem_singleton.mp hx]
    exact parsed_five

theorem fitsLiteral_listOfFive : FitsLiteral noScopes noScopes {} i32List listOfFive := by
  refine .list rfl fun x hx => ?_
  rw [List.mem_singleton.mp hx]
  exact .plain trivial (by decide) (.integer (expands_self rfl) trivial (.inl rfl))

/-- `const list<i32> X = [5]` -/
theorem listOfFive_readsMatch :
    ReadsMatch noScopes noScopes 1 1 {} i32List i32List listOfFive listOfFive :=
  (readsMatch_iff_fitsLiteral parsed_listOfFive (.list .baseType) (.inl rfl) rfl).1
    fitsLiteral_listOfFive

/-- `const list<i32> X = 5` is accepted and printed as an empty list. -/
theorem listIsFive_not_readsMatch :
    Parsed five ∧ DistinctMembers i32List ∧
      resolveConstValue noScopes 1 {} i32List five = .ok five ∧
      validateConstRec "X" i32List five = .ok () ∧
      renderConstValue noScopes 1 i32List five = .ok (.array []) ∧
      ¬ ReadsMatch noScopes noScopes 1 1 {} i32List i32List five five := by
  refine ⟨parsed_five, .list .baseType, rfl, rfl, rfl, fun h => ?_⟩
  exact absurd (h.1 (call .get_list five) (by decide)) (by decide)

end Examples

end Sparsam.FittingLiterals
