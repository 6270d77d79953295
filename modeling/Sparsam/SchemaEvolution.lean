import Sparsam.DecodedValue

set_option autoImplicit false

/-!
# Reading with another schema

A message is written over the schema `w` and read over the schema `r`, in which
fields may have been added, dropped or renamed. `Evolves` asks only that a field
id which both have is of one wire type, and that a union of `r` knows the
members. What is read carries what was written: field by field through the ids,
with the defaults of the reading class elsewhere.
-/
namespace Sparsam.SchemaEvolution
open WireProtocol RubyRuntime FieldInfoCache ObjectMethods ExceptionState SerializerWrite
open SerializerRead DecoderCalls DecoderFraming DecoderTyping SerializerConformance SerializerWire
open ObjectAgreement GenericSkip SerializerRoundTrip DecodedValue

/-- Definitions of one wire type, where `κ klass` reads the objects of `klass`. -/
inductive SameWire (κ : VALUE → VALUE) : FieldInfo → FieldInfo → Prop
  | scalar (fi fi' : FieldInfo) (type : fi'.ftype = fi.ftype)
      (wire : fi.ftype ∈ [TType.BOOL, .BYTE, .DOUBLE, .I16, .I32, .I64, .STRING])
      (binary : fi'.isBinaryString = fi.isBinaryString) : SameWire κ fi fi'
  | sequence (fi fi' e e' : FieldInfo) (type : fi'.ftype = fi.ftype)
      (wire : fi.ftype ∈ [TType.LIST, .SET]) (element : fi.elementType = some e)
      (element' : fi'.elementType = some e') (elem : SameWire κ e e') : SameWire κ fi fi'
  | map (fi fi' k k' e e' : FieldInfo) (type : fi'.ftype = fi.ftype) (wire : fi.ftype = .MAP)
      (key : fi.keyType = some k) (key' : fi'.keyType = some k') (element : fi.elementType = some e)
      (element' : fi'.elementType = some e') (keys : SameWire κ k k') (elem : SameWire κ e e') :
      SameWire κ fi fi'
  | struct (fi fi' : FieldInfo) (type : fi'.ftype = fi.ftype) (wire : fi.ftype = .STRUCT)
      (klass : fi'.klass = κ fi.klass) : SameWire κ fi fi'

section SameWire
variable {κ : VALUE → VALUE} {fi fi' : FieldInfo}

theorem SameWire.ftype (h : SameWire κ fi fi') : fi'.ftype = fi.ftype := by
  cases h <;> assumption

theorem SameWire.binary (h : SameWire κ fi fi') (ht : fi.ftype = .STRING) :
    fi'.isBinaryString = fi.isBinaryString := by
  cases h with
  | scalar _ _ type wire binary => exact binary
  | sequence _ _ _ _ _ wire => simp [ht] at wire
  | map _ _ _ _ _ _ _ wire => simp [ht] at wire
  | struct _ _ _ wire => simp [ht] at wire

theorem SameWire.element (h : SameWire κ fi fi') {e : FieldInfo} (ht : fi.ftype = .LIST ∨
    fi.ftype = .SET ∨ fi.ftype = .MAP) (he : fi.elementType = some e) :
    ∃ e', fi'.elementType = some e' ∧ SameWire κ e e' := by
  cases h with
  | scalar _ _ type wire binary => rcases ht with ht | ht | ht <;> simp [ht] at wire
  | sequence _ _ e₁ e' _ _ element element' elem =>
    obtain rfl : e = e₁ := Option.some.inj (he.symm.trans element)
    exact ⟨e', element', elem⟩
  | map _ _ _ _ e₁ e' _ _ _ _ element element' _ elem =>
    obtain rfl : e = e₁ := Option.some.inj (he.symm.trans element)
    exact ⟨e', element', elem⟩
  | struct _ _ _ wire => rcases ht with ht | ht | ht <;> simp [ht] at wire

theorem SameWire.key (h : SameWire κ fi fi') {k : FieldInfo} (ht : fi.ftype = .MAP)
    (hk : fi.keyType = some k) : ∃ k', fi'.keyType = some k' ∧ SameWire κ k k' := by
  cases h with
  | scalar _ _ type wire binary => simp [ht] at wire
  | sequence _ _ _ _ _ wire => simp [ht] at wire
  | map _ _ k₁ k' _ _ _ _ key key' _ _ keys _ =>
    obtain rfl : k = k₁ := Option.some.inj (hk.symm.trans key)
    exact ⟨k', key', keys⟩
  | struct _ _ _ wire => simp [ht] at wire

theorem SameWire.klass (h : SameWire κ fi fi') (ht : fi.ftype = .STRUCT) :
    fi'.klass = κ fi.klass := by
  cases h with
  | scalar _ _ type wire binary => simp [ht] at wire
  | sequence _ _ _ _ _ wire => simp [ht] at wire
  | map _ _ _ _ _ _ _ wire => simp [ht] at wire
  | struct _ _ _ _ klass => exact klass

end SameWire

/-- `r` can read what is written over `w`. -/
structure Evolves (w r : Schema) (κ : VALUE → VALUE) : Prop where
  isUnion : ∀ klass, w.Cached klass → r.isUnion (κ klass) = w.isUnion klass
  table : ∀ klass fields, w.fieldInfoMap klass = some fields →
    ∃ fields', r.fieldInfoMap (κ klass) = some fields' ∧
      (∀ e ∈ fields.entries, ∀ fi', fields'.find? e.1 = some fi' → SameWire κ e.2 fi') ∧
      (w.isUnion klass = true → ∀ e ∈ fields.entries,
        ∃ fi', fields'.find? e.1 = some fi' ∧ fi'.symName ≠ "setfield")

section Numbering
variable {sch : Schema}

theorem le_inTurn {β γ : Type} {make : γ → ℕ → β × ℕ} {items : List γ}
    (h : ∀ c ∈ items, ∀ next, next ≤ (make c next).2) (next : ℕ) :
    next ≤ (inTurn make items next).2 := by
  induction items generalizing next with
  | nil => exact le_refl next
  | cons c items ih =>
    have hhead := h c (by simp) next
    have htail := ih (fun d hd => h d (List.mem_cons_of_mem _ hd)) (make c next).2
    exact le_trans hhead htail

theorem le_decoded (v : WireValue) : ∀ (fi : FieldInfo) (next : ℕ),
    next ≤ (decoded sch fi v next).2 := by
  induction v using WireValue.induct with
  | bool | byte | i16 | i32 | i64 | double | string => exact fun _ next => le_refl next
  | list et ws ih =>
    intro fi next
    rw [decoded]
    cases fi.elementType with
    | none => exact le_refl next
    | some e =>
      dsimp only
      split
      · exact le_refl next
      · rw [decodedElems_eq]
        exact le_inTurn (fun w hw => ih w hw e) next
  | set et ws ih =>
    intro fi next
    rw [decoded]
    cases fi.elementType with
    | none => exact le_refl next
    | some e =>
      dsimp only
      split
      · exact le_refl next
      · rw [decodedElems_eq]
        exact le_inTurn (fun w hw => ih w hw e) next
  | map kt vt kvs ih =>
    intro fi next
    rw [decoded]
    cases fi.keyType with
    | none => exact le_refl next
    | some k =>
      cases fi.elementType with
      | none => exact le_refl next
      | some e =>
        dsimp only
        rw [decodedEntries_eq]
        refine le_inTurn (fun kv hkv next => ?_) next
        exact le_trans ((ih kv hkv).1 k next) ((ih kv hkv).2 e _)
  | struct fs ih =>
    intro fi next
    rw [decoded]
    cases sch.fieldInfoMap fi.klass with
    | none => exact le_refl next
    | some fields =>
      have hfields : ∀ (gs : List (Int16 × WireValue)), (∀ g ∈ gs, g ∈ fs) →
          ∀ (ret : Instance) (lo : ℕ), lo ≤ (decodedFields sch fields gs ret lo).2 := by
        intro gs
        induction gs with
        | nil => exact fun _ _ lo => le_refl lo
        | cons g gs ihgs =>
          obtain ⟨fid, v⟩ := g
          intro hmem ret lo
          have hrest := ihgs fun g hg => hmem g (List.mem_cons_of_mem _ hg)
          rw [decodedFields]
          cases fields.find? fid with
          | none => exact hrest ret lo
          | some fd => exact le_trans (ih (fid, v) (hmem _ (by simp)) fd lo) (hrest _ _)
      have hunion : ∀ ret lo, lo ≤ (decodedUnion sch fields fs ret lo).2 := by
        intro ret lo
        cases fs with
        | nil => exact le_refl lo
        | cons g gs =>
          obtain ⟨fid, v⟩ := g
          rw [decodedUnion]
          cases fields.find? fid with
          | none => exact le_refl lo
          | some fd => exact ih (fid, v) (by simp) fd lo
      dsimp only
      split
      · exact le_trans (Nat.le_succ next) (hunion _ _)
      · exact le_trans (Nat.le_succ next) (hfields fs (fun _ h => h) _ _)

end Numbering

section Transfers
variable (w r : Schema)

/-- The value is framed for the reader, and what it reads carries the value. -/
def Transfers (fi fi' : FieldInfo) (v : Value) : Prop :=
  verdict r fi' (wireOf w fi v) = .framed ∧ ∀ lo,
    Carries w r (newIvar r) fi fi' v (decoded r fi' (wireOf w fi v) lo).1 ∧
    Within r lo (decoded r fi' (wireOf w fi v) lo).2 (decoded r fi' (wireOf w fi v) lo).1

variable {w r} {κ : VALUE → VALUE}

theorem all_framed_of {α : Type} {v : α → Verdict} {xs : List α} (h : ∀ x ∈ xs, v x = .framed) :
    Verdict.all (xs.map v) = .framed := by
  induction xs with
  | nil => rfl
  | cons x xs ih =>
    obtain ⟨hx, hxs⟩ := List.forall_mem_cons.mp h
    rw [List.map_cons, Verdict.all, hx, Verdict.framed_seq, ih hxs]

/-- A loop returns one item for each written one. The identities of an item come
    from its own turn, so no two items share one. -/
theorem inTurn_carries {β γ δ : Type} (make : δ → ℕ → β × ℕ) (source : γ → δ) (oids : β → List ℕ)
    (A : γ → β → Prop) (items : List γ)
    (step : ∀ c ∈ items, ∀ lo, A c (make (source c) lo).1 ∧ lo ≤ (make (source c) lo).2 ∧
      ∀ o ∈ oids (make (source c) lo).1, lo ≤ o ∧ o < (make (source c) lo).2) (lo : ℕ) :
    (inTurn make (items.map source) lo).1.length = items.length ∧
      (∀ p ∈ items.zip (inTurn make (items.map source) lo).1, A p.1 p.2) ∧
      (inTurn make (items.map source) lo).1.Pairwise (fun b b' => ∀ o ∈ oids b, o ∉ oids b') ∧
      lo ≤ (inTurn make (items.map source) lo).2 ∧
      ∀ b ∈ (inTurn make (items.map source) lo).1, ∀ o ∈ oids b,
        lo ≤ o ∧ o < (inTurn make (items.map source) lo).2 := by
  induction items generalizing lo with
  | nil => simp [inTurn]
  | cons c items ih =>
    obtain ⟨hA, hle, hwin⟩ := step c (by simp) lo
    obtain ⟨hlen, hzip, hpair, hhi, hall⟩ :=
      ih (fun d hd => step d (List.mem_cons_of_mem _ hd)) (make (source c) lo).2
    simp only [List.map_cons, inTurn, List.length_cons, hlen, List.zip_cons_cons,
      List.forall_mem_cons, List.pairwise_cons]
    refine ⟨trivial, ⟨hA, hzip⟩, ⟨fun b' hb' o ho ho' => ?_, hpair⟩, le_trans hle hhi, ?_, ?_⟩
    · have h1 := hwin o ho
      have h2 := hall b' hb' o ho'
      omega
    · intro o ho
      have h1 := hwin o ho
      omega
    · intro b' hb' o ho
      have h2 := hall b' hb' o ho
      omega

theorem transfers_elems {e e' : FieldInfo} {xs : List Value} (h : ∀ x ∈ xs, Transfers w r e e' x)
    (lo : ℕ) : ∃ ys hi, decodedElems r e' (wireElems w e xs) lo = (ys, hi) ∧
      ys.length = xs.length ∧ (∀ p ∈ xs.zip ys, Carries w r (newIvar r) e e' p.1 p.2) ∧
      ys.Pairwise (Apart r.isUnion) ∧ ∀ y ∈ ys, Within r lo hi y := by
  rw [wireElems_eq, decodedElems_eq]
  obtain ⟨hlen, hzip, hpair, -, hall⟩ := inTurn_carries (decoded r e') (wireOf w e)
    (visibleOids r.isUnion) (Carries w r (newIvar r) e e') xs
    (fun x hx lo => ⟨((h x hx).2 lo).1, le_decoded _ e' lo, ((h x hx).2 lo).2⟩) lo
  exact ⟨_, _, rfl, hlen, hzip, hpair, hall⟩

theorem framed_elems {e e' : FieldInfo} {xs : List Value} (h : ∀ x ∈ xs, Transfers w r e e' x) :
    verdictElems r e' (wireElems w e xs) = .framed := by
  rw [wireElems_eq, verdictElems_eq]
  exact all_framed_of (List.forall_mem_map.mpr fun x hx => (h x hx).1)

theorem transfers_ary {fi fi' e e' : FieldInfo} {xs : List Value} (he : fi.elementType = some e)
    (he' : fi'.elementType = some e') (type : e'.ftype = e.ftype)
    (h : ∀ x ∈ xs, Transfers w r e e' x) : Transfers w r fi fi' (.ary xs) := by
  have hwire : wireOf w fi (.ary xs) = .list e.ftype (wireElems w e xs) := by
    simp only [wireOf, he]
  have hne : ¬ e.ftype ≠ e'.ftype := not_not.mpr type.symm
  unfold Transfers
  rw [hwire]
  simp only [verdict, decoded, he', if_neg hne]
  refine ⟨framed_elems h, fun lo => ?_⟩
  obtain ⟨ys, hi, hys, hlen, hzip, -, hall⟩ := transfers_elems h lo
  rw [hys]
  exact ⟨.list fi fi' e e' xs ys he he' hlen hzip, within_elems hall⟩

theorem transfers_set {fi fi' e e' : FieldInfo} {xs : List Value} (he : fi.elementType = some e)
    (he' : fi'.elementType = some e') (type : e'.ftype = e.ftype)
    (distinct : xs.Pairwise fun x y => sameKey w.isUnion x y = false)
    (h : ∀ x ∈ xs, Transfers w r e e' x) : Transfers w r fi fi' (.set xs) := by
  have hwire : wireOf w fi (.set xs) = .set e.ftype (wireElems w e xs) := by
    simp only [wireOf, he]
  have hne : ¬ e.ftype ≠ e'.ftype := not_not.mpr type.symm
  unfold Transfers
  rw [hwire]
  simp only [verdict, decoded, he', if_neg hne]
  refine ⟨framed_elems h, fun lo => ?_⟩
  obtain ⟨ys, hi, hys, hlen, hzip, hapart, hall⟩ := transfers_elems h lo
  rw [hys]
  have hdistinct := pairwise_apart id id hlen hzip hapart distinct
  dsimp only
  rw [setNew_of_pairwise r.isUnion hdistinct]
  exact ⟨.set fi fi' e e' xs ys he he' hlen hzip, within_elems hall⟩

theorem transfers_hash {fi fi' k k' e e' : FieldInfo} {kvs : List (Value × Value)}
    (hk : fi.keyType = some k) (hk' : fi'.keyType = some k') (he : fi.elementType = some e)
    (he' : fi'.elementType = some e')
    (distinct : kvs.Pairwise fun x y => sameKey w.isUnion x.1 y.1 = false)
    (keys : ∀ kv ∈ kvs, Transfers w r k k' kv.1) (values : ∀ kv ∈ kvs, Transfers w r e e' kv.2) :
    Transfers w r fi fi' (.hash kvs) := by
  have hwire : wireOf w fi (.hash kvs) = .map k.ftype e.ftype (wireEntries w k e kvs) := by
    simp only [wireOf, hk, he]
  unfold Transfers
  rw [hwire]
  simp only [verdict, decoded, hk', he', wireEntries_eq, verdictEntries_eq, decodedEntries_eq]
  constructor
  · refine all_framed_of (List.forall_mem_map.mpr fun kv hkv => ?_)
    rw [(keys kv hkv).1, Verdict.framed_seq]
    exact (values kv hkv).1
  · intro lo
    obtain ⟨hlen, hzip, hpair, -, hall⟩ := inTurn_carries (decodedEntry r k' e')
      (fun kv : Value × Value => (wireOf w k kv.1, wireOf w e kv.2))
      (fun b : Value × Value => visibleOids r.isUnion b.1 ++ visibleOids r.isUnion b.2)
      (fun a b : Value × Value =>
        Carries w r (newIvar r) k k' a.1 b.1 ∧ Carries w r (newIvar r) e e' a.2 b.2) kvs
      (fun kv hkv lo => by
        have hkey := (keys kv hkv).2 lo
        have hval := (values kv hkv).2 (decoded r k' (wireOf w k kv.1) lo).2
        have hle := @le_decoded r (wireOf w k kv.1) k' lo
        have hle' := @le_decoded r (wireOf w e kv.2) e' (decoded r k' (wireOf w k kv.1) lo).2
        refine ⟨⟨hkey.1, hval.1⟩, le_trans hle hle', fun o ho => ?_⟩
        rcases List.mem_append.mp ho with ho | ho
        · have h1 := hkey.2 o ho
          exact ⟨h1.1, lt_of_lt_of_le h1.2 hle'⟩
        · have h1 := hval.2 o ho
          exact ⟨le_trans hle h1.1, h1.2⟩) lo
    revert hlen hzip hpair hall
    generalize inTurn (decodedEntry r k' e') _ lo = made
    obtain ⟨kvs', hi⟩ := made
    intro hlen hzip hpair hall
    dsimp only at hlen hzip hpair hall ⊢
    have hapart : kvs'.Pairwise fun a b => Apart r.isUnion a.1 b.1 :=
      hpair.imp fun h o ho ho' => h o (List.mem_append_left _ ho) (List.mem_append_left _ ho')
    have hdistinct := pairwise_apart Prod.fst Prod.fst hlen (fun p hp => (hzip p hp).1)
      hapart distinct
    rw [hashNew_of_pairwise r.isUnion hdistinct]
    refine ⟨.map fi fi' k k' e e' kvs kvs' hk hk' he he' hlen (fun p hp => (hzip p hp).1)
      fun p hp => (hzip p hp).2, fun o ho => ?_⟩
    rw [visibleOids, entryOids_eq] at ho
    obtain ⟨b, hb, ho⟩ := List.mem_flatMap.mp ho
    exact hall b hb o ho

/-- A value of the field, if there is one, transfers to each definition of its id. -/
def FieldTransfers (w r : Schema) (fields' : FieldInfoMap)
    (ivars : List (ID × Value)) (e : Int16 × FieldInfo) : Prop :=
  ∀ fd', fields'.find? e.1 = some fd' → ivarGet ivars e.2.ivarName ≠ .nil →
    Transfers w r e.2 fd' (ivarGet ivars e.2.ivarName) ∧
    (wireOf w e.2 (ivarGet ivars e.2.ivarName)).type = fd'.ftype

theorem fields_transfer {klass' : VALUE} {fields' : FieldInfoMap}
    (hf' : r.fieldInfoMap klass' = some fields') {ivars : List (ID × Value)}
    {es : List (Int16 × FieldInfo)} (hnodup : (es.map Prod.fst).Nodup)
    (held : ∀ e ∈ es, FieldTransfers w r fields' ivars e) (ret : Instance) (lo : ℕ) :
    verdictFields r fields' (es.filterMap fun e => wireIvar w e ivars) = .framed ∧
    ∃ after hi, decodedFields r fields' (es.filterMap fun e => wireIvar w e ivars) ret lo =
      (⟨ret.oid, ret.klass, after⟩, hi) ∧ lo ≤ hi ∧
      Filled (Carries w r (newIvar r)) fields' es ivars ret.ivars after := by
  induction es generalizing ret lo with
  | nil => exact ⟨rfl, ret.ivars, lo, rfl, le_refl lo, Filled.nil⟩
  | cons e es ih =>
    obtain ⟨hnotin, hnodup⟩ := List.nodup_cons.mp hnodup
    obtain ⟨hhead, htail⟩ := List.forall_mem_cons.mp held
    have hivar := wireIvar_eq w e ivars
    by_cases hnil : ivarGet ivars e.2.ivarName = .nil
    · -- Nothing was written for this field.
      rw [hnil, Value.isNil, if_pos rfl] at hivar
      rw [List.filterMap_cons_none (f := fun e => wireIvar w e ivars) hivar]
      obtain ⟨hv, after, hi, hmade, hle, hafter⟩ := ih hnodup htail ret lo
      exact ⟨hv, after, hi, hmade, hle, hafter.keep fun _ _ => hnil⟩
    · have hne : ¬ (ivarGet ivars e.2.ivarName).isNil = true := by rwa [Value.isNil_eq_true]
      rw [if_neg hne] at hivar
      rw [List.filterMap_cons_some (f := fun e => wireIvar w e ivars) hivar]
      simp only [verdictFields, decodedFields]
      cases hfind : fields'.find? e.1 with
      | none =>
        -- The reader does not know the id and skips the value.
        obtain ⟨hv, after, hi, hmade, hle, hafter⟩ := ih hnodup htail ret lo
        refine ⟨hv, after, hi, hmade, hle, hafter.keep fun fd' hfd' => ?_⟩
        rw [hfind] at hfd'
        cases hfd'
      | some fd' =>
        obtain ⟨⟨hverdict, hcarries⟩, htype⟩ := hhead fd' hfind hnil
        have htype' : ¬ fd'.ftype ≠ (wireOf w e.2 (ivarGet ivars e.2.ivarName)).type :=
          not_not.mpr htype.symm
        dsimp only
        rw [if_neg htype', hverdict, Verdict.framed_seq]
        have hvalue := hcarries lo
        have hlo := @le_decoded r (wireOf w e.2 (ivarGet ivars e.2.ivarName)) fd' lo
        revert hvalue hlo
        generalize decoded r fd' (wireOf w e.2 (ivarGet ivars e.2.ivarName)) lo = made
        obtain ⟨y, mid⟩ := made
        intro hvalue hlo
        dsimp only at hvalue hlo ⊢
        have hynil : ¬ y.isNil = true := by
          rw [Value.isNil_eq_true]
          exact hvalue.1.ne_nil.2
        rw [if_neg hynil]
        obtain ⟨hv, after, hi, hmade, hle, hafter⟩ := ih hnodup htail (ret.set fd'.ivarName y) mid
        exact ⟨hv, after, hi, hmade, le_trans hlo hle,
          hafter.set hfind (alone_of_nodup hf' hnotin hfind) hnil hvalue.1⟩

def Transferred (w r : Schema) (κ : VALUE → VALUE) (v : Value) : Prop :=
  ∀ fi fi' : FieldInfo, fi.Generated w.Cached → SameWire κ fi fi' → Conforms w fi v →
    Ordinary w fi v → Transfers w r fi fi' v

theorem verdictNew_framed (hnames : Unshadowed r) (klass : VALUE) :
    verdictNew r klass = .framed := if_pos (hnames.makes klass)

variable {fi fi' : FieldInfo} {fields fields' : FieldInfoMap} {ivars : List (ID × Value)}

theorem transfers_struct (hnames : Unshadowed r) (hf : w.fieldInfoMap fi.klass = some fields)
    (hf' : r.fieldInfoMap fi'.klass = some fields') (hu : r.isUnion fi'.klass = false)
    (held : ∀ e ∈ fields.entries, FieldTransfers w r fields' ivars e) (oid : ℕ) (eigen : Bool) :
    Transfers w r fi fi' (.obj oid fi.klass eigen ivars) := by
  have hwire : wireOf w fi (.obj oid fi.klass eigen ivars) =
      .struct (fields.entries.filterMap fun e => wireIvar w e ivars) := by
    simp only [wireOf, hf]
  unfold Transfers
  rw [hwire]
  simp only [verdict, decoded, hf', hu, Bool.false_eq_true, ↓reduceIte, verdictNew_framed hnames,
    Verdict.framed_seq]
  refine ⟨(fields_transfer hf' (entries_nodup fields) held ⟨0, 0, []⟩ 0).1, fun lo => ?_⟩
  obtain ⟨-, after, hi, hmade, hle, hin, hout⟩ := fields_transfer hf' (entries_nodup fields) held
    (created r fi'.klass lo) (lo + 1)
  rw [hmade]
  constructor
  · refine .struct fi fi' oid lo eigen ivars after fields fields' hf hf' hu hin fun name hall => ?_
    rw [hout name hall, created, newIvar,
      hnames.newIvars_struct (by simp [Schema.Cached, hf']) hu]
  · intro o ho
    dsimp only [Instance.toValue, created] at ho
    rw [visibleOids_struct hu, List.mem_singleton] at ho
    dsimp only
    omega

theorem transfers_unset (hnames : Unshadowed r) (hf : w.fieldInfoMap fi.klass = some fields)
    (hf' : r.fieldInfoMap fi'.klass = some fields') (hu : w.isUnion fi.klass = true)
    (hu' : r.isUnion fi'.klass = true) (tag : setField ivars = none)
    (unset : ∀ e ∈ fields.entries, ivarGet ivars e.2.ivarName = .nil) (oid : ℕ) (eigen : Bool) :
    Transfers w r fi fi' (.obj oid fi.klass eigen ivars) := by
  have hnil : (fields.entries.filterMap fun e => wireIvar w e ivars) = [] := by
    rw [List.filterMap_eq_nil_iff]
    intro e he
    rw [wireIvar_eq, unset e he, Value.isNil, if_pos rfl]
  have hwire : wireOf w fi (.obj oid fi.klass eigen ivars) = .struct [] := by
    simp only [wireOf, hf, hnil]
  unfold Transfers
  rw [hwire]
  simp only [verdict, decoded, hf', hu', ↓reduceIte, verdictUnion, decodedUnion,
    verdictNew_framed hnames, Verdict.framed_seq]
  refine ⟨trivial, fun lo => ?_⟩
  rw [Instance.toValue, created, newIvars_union hf' hu']
  refine ⟨.unset fi fi' oid lo eigen ivars [] hu hu' tag fun _ => rfl, fun o ho => ?_⟩
  rw [visibleOids_union hu'] at ho
  simp [ivarOids] at ho

theorem transfers_union (hnames : Unshadowed r) (hf : w.fieldInfoMap fi.klass = some fields)
    (hf' : r.fieldInfoMap fi'.klass = some fields') (hu : w.isUnion fi.klass = true)
    (hu' : r.isUnion fi'.klass = true) {e : Int16 × FieldInfo} (he : e ∈ fields.entries)
    {fd' : FieldInfo} (hfind : fields'.find? e.1 = some fd') (name : fd'.symName ≠ "setfield")
    (tag : setField ivars = some e.2.symName) (value : ivarGet ivars e.2.ivarName ≠ .nil)
    (only : ∀ e' ∈ fields.entries, e' ≠ e → ivarGet ivars e'.2.ivarName = .nil)
    (held : Transfers w r e.2 fd' (ivarGet ivars e.2.ivarName)) (oid : ℕ) (eigen : Bool) :
    Transfers w r fi fi' (.obj oid fi.klass eigen ivars) := by
  have hone : (fields.entries.filterMap fun e => wireIvar w e ivars) =
      [(e.1, wireOf w e.2 (ivarGet ivars e.2.ivarName))] := by
    refine filterMap_eq_singleton (List.Nodup.of_map _ (entries_nodup fields)) he ?_ ?_
    · rw [wireIvar_eq, if_neg (by rwa [Value.isNil_eq_true])]
    · intro e'' he'' hne
      rw [wireIvar_eq, only e'' he'' hne, Value.isNil, if_pos rfl]
  have hwire : wireOf w fi (.obj oid fi.klass eigen ivars) =
      .struct [(e.1, wireOf w e.2 (ivarGet ivars e.2.ivarName))] := by
    simp only [wireOf, hf, hone]
  obtain ⟨hverdict, hcarries⟩ := held
  unfold Transfers
  rw [hwire]
  simp only [verdict, decoded, hf', hu', ↓reduceIte, verdictUnion, decodedUnion, hfind, hverdict,
    verdictNew_framed hnames, List.isEmpty_nil, Verdict.framed_seq]
  refine ⟨trivial, fun lo => ?_⟩
  have hvalue := hcarries (lo + 1)
  revert hvalue
  generalize decoded r fd' (wireOf w e.2 (ivarGet ivars e.2.ivarName)) (lo + 1) = made
  obtain ⟨y, hi⟩ := made
  intro hvalue
  dsimp only at hvalue ⊢
  have hynil : ¬ y.isNil = true := by
    rw [Value.isNil_eq_true]
    exact hvalue.1.ne_nil.2
  rw [if_neg hynil]
  have hivar := r.ivarName fi'.klass fields' hf' _ ((fields'.find?_eq_some_iff e.1 fd').mp hfind)
  dsimp only at hivar
  have htag : fd'.ivarName ≠ "@setfield" := by
    have hset : "@setfield" = "@" ++ "setfield" := by decide
    rw [hivar, hset, ne_eq, String.append_right_inj]
    exact name
  have hiv : ivarSet (ivarSet [] "@setfield" (.sym fd'.symName)) fd'.ivarName y =
      [("@setfield", .sym fd'.symName), (fd'.ivarName, y)] := by
    simp [ivarSet, Ne.symm htag]
  simp only [Instance.toValue, Instance.set, created, newIvars_union hf' hu']
  rw [hiv]
  have hget : ivarGet [("@setfield", .sym fd'.symName), (fd'.ivarName, y)] fd'.ivarName = y := by
    simp [ivarGet, Ne.symm htag]
  constructor
  · refine .union fi fi' oid lo eigen ivars _ fields fields' e fd' hf hf' hu hu' he hfind tag ?_ ?_
      fun n h1 h2 => ?_
    · simp [setField, ivarGet]
    · rw [hget]
      exact hvalue.1
    · simp [ivarGet, Ne.symm h1, Ne.symm h2]
  · intro o ho
    rw [visibleOids_union hu'] at ho
    simp only [ivarOids, visibleOids, List.nil_append, List.append_nil] at ho
    have hwin := hvalue.2 o ho
    omega

theorem transfers_obj (hnames : Unshadowed r) (hev : Evolves w r κ)
    (hg : fi.Generated w.Cached) (h : SameWire κ fi fi') (ht : fi.ftype = .STRUCT) {oid : ℕ}
    {eigen : Bool} (ih : Held (Transferred w r κ) ivars)
    (hc : Conforms w fi (.obj oid fi.klass eigen ivars))
    (ho : Ordinary w fi (.obj oid fi.klass eigen ivars)) :
    Transfers w r fi fi' (.obj oid fi.klass eigen ivars) := by
  have hcached := generated_klass hg ht
  obtain ⟨fields, hf⟩ := Option.isSome_iff_exists.mp hcached
  obtain ⟨fields', hf', hsame, hmembers⟩ := hev.table fi.klass fields hf
  have hisUnion := hev.isUnion fi.klass hcached
  rw [← h.klass ht] at hf' hisUnion
  have hheld : ∀ e ∈ fields.entries, ivarGet ivars e.2.ivarName ≠ .nil →
      Conforms w e.2 (ivarGet ivars e.2.ivarName) := by
    cases hc with
    | struct _ _ _ _ fields₁ _ table _ held =>
      obtain rfl : fields = fields₁ := Option.some.inj (hf.symm.trans table)
      exact held
  have transfer : ∀ e ∈ fields.entries, ∀ fd', fields'.find? e.1 = some fd' →
      ivarGet ivars e.2.ivarName ≠ .nil → Ordinary w e.2 (ivarGet ivars e.2.ivarName) →
      Transfers w r e.2 fd' (ivarGet ivars e.2.ivarName) ∧
        (wireOf w e.2 (ivarGet ivars e.2.ivarName)).type = fd'.ftype := by
    intro e he fd' hfd' hne hord
    have hconf := hheld e he hne
    have hsw := hsame e he fd' hfd'
    refine ⟨ih _ hne e.2 fd' (w.generated _ fields hf e he) hsw hconf hord, ?_⟩
    rw [wireOf_type hconf, hsw.ftype]
  cases ho with
  | struct _ _ _ _ _ fields₁ table isStruct held =>
    obtain rfl : fields = fields₁ := Option.some.inj (hf.symm.trans table)
    refine transfers_struct hnames hf hf' (hisUnion.trans isStruct) (fun e he => ?_) oid eigen
    exact fun fd' hfd' hne => transfer e he fd' hfd' hne (held e he hne)
  | unset _ _ _ _ _ fields₁ table isUnion tag unset =>
    obtain rfl : fields = fields₁ := Option.some.inj (hf.symm.trans table)
    exact transfers_unset hnames hf hf' isUnion (hisUnion.trans isUnion) tag unset oid eigen
  | union _ _ _ _ _ fields₁ e table isUnion member name tag value only held =>
    obtain rfl : fields = fields₁ := Option.some.inj (hf.symm.trans table)
    obtain ⟨fd', hfd', hname⟩ := hmembers isUnion e member
    exact transfers_union hnames hf hf' isUnion (hisUnion.trans isUnion) member hfd' hname tag
      value only
      (transfer e member fd' hfd' value held).1 oid eigen

theorem transfers_int {n : ℤ} (range : inWidth fi.ftype n = true) :
    Transfers w r fi fi' (.int n) := by
  have carries : ∀ m : ℤ, m = n → Carries w r (newIvar r) fi fi' (.int n) (.int m) := by
    rintro m rfl
    exact .int fi fi' m
  cases ht : fi.ftype with
  | I16 =>
    simp only [ht, inWidth, decide_eq_true_eq] at range
    unfold Transfers
    simp only [wireOf, ht, verdict, decoded]
    exact ⟨trivial, fun lo => ⟨carries _ (Int16.toInt_ofInt_of_le range.1 range.2), by
      simp [Within, visibleOids]⟩⟩
  | I32 =>
    simp only [ht, inWidth, decide_eq_true_eq] at range
    unfold Transfers
    simp only [wireOf, ht, verdict, decoded]
    exact ⟨trivial, fun lo => ⟨carries _ (Int32.toInt_ofInt_of_le range.1 range.2), by
      simp [Within, visibleOids]⟩⟩
  | I64 =>
    simp only [ht, inWidth, decide_eq_true_eq] at range
    unfold Transfers
    simp only [wireOf, ht, verdict, decoded]
    exact ⟨trivial, fun lo => ⟨carries _ (Int64.toInt_ofInt_of_le range.1 range.2), by
      simp [Within, visibleOids]⟩⟩
  | BYTE =>
    simp only [ht, inWidth, decide_eq_true_eq] at range
    unfold Transfers
    simp only [wireOf, ht, verdict, decoded]
    exact ⟨trivial, fun lo => ⟨carries _ (Int8.toInt_ofInt_of_le range.1 range.2), by
      simp [Within, visibleOids]⟩⟩
  | _ => simp [ht, inWidth] at range

theorem transfers (hnames : Unshadowed r) (hev : Evolves w r κ) (v : Value) : ∀ fi fi' : FieldInfo,
    fi.Generated w.Cached → SameWire κ fi fi' → Conforms w fi v → Ordinary w fi v →
    Transfers w r fi fi' v := by
  induction v using Value.induct with
  | nil | sym | klass | foreign => intro fi fi' _ _ hc; cases hc
  | int n =>
    intro fi fi' _ h hc _
    cases hc with
    | int _ _ range => exact transfers_int range
  | bool b =>
    intro fi fi' _ h hc _
    exact ⟨rfl, fun lo => ⟨.bool fi fi' b, by simp [wireOf, decoded, Within, visibleOids]⟩⟩
  | float bits =>
    intro fi fi' _ h hc _
    exact ⟨rfl, fun lo => ⟨.double fi fi' bits, by simp [wireOf, decoded, Within, visibleOids]⟩⟩
  | str enc bytes =>
    intro fi fi' _ h hc ho
    cases hc with
    | string _ _ _ type =>
      cases ho with
      | string =>
        refine ⟨rfl, fun lo => ⟨?_, by simp [wireOf, decoded, Within, visibleOids]⟩⟩
        simp only [wireOf, decoded, h.binary type]
        exact .string fi fi' _ bytes
  | ary xs ih =>
    intro fi fi' hg h hc ho
    cases hc with
    | list _ e _ type element elems =>
      obtain ⟨e', element', hsame⟩ := h.element (.inl type) element
      cases ho with
      | list _ e₁ _ element₁ size ord =>
        obtain rfl : e = e₁ := Option.some.inj (element.symm.trans element₁)
        exact transfers_ary element element' hsame.ftype fun x hx =>
          ih x hx e e' (generated_element hg element) hsame (elems x hx) (ord x hx)
  | set xs ih =>
    intro fi fi' hg h hc ho
    cases hc with
    | set _ e _ type element elems =>
      obtain ⟨e', element', hsame⟩ := h.element (.inr (.inl type)) element
      cases ho with
      | set _ e₁ _ element₁ size distinct ord =>
        obtain rfl : e = e₁ := Option.some.inj (element.symm.trans element₁)
        exact transfers_set element element' hsame.ftype distinct fun x hx =>
          ih x hx e e' (generated_element hg element) hsame (elems x hx) (ord x hx)
  | hash kvs ih =>
    intro fi fi' hg h hc ho
    cases hc with
    | map _ k e _ type key element keys values =>
      obtain ⟨e', element', hsame⟩ := h.element (.inr (.inr type)) element
      obtain ⟨k', key', hsameKey⟩ := h.key type key
      cases ho with
      | map _ k₁ e₁ _ key₁ element₁ size distinct keys₁ values₁ =>
        obtain rfl : e = e₁ := Option.some.inj (element.symm.trans element₁)
        obtain rfl : k = k₁ := Option.some.inj (key.symm.trans key₁)
        exact transfers_hash key key' element element' distinct
          (fun kv hkv => (ih kv hkv).1 k k' (generated_key hg key) hsameKey (keys kv hkv)
            (keys₁ kv hkv))
          fun kv hkv => (ih kv hkv).2 e e' (generated_element hg element) hsame (values kv hkv)
            (values₁ kv hkv)
  | obj oid klass eigen ivars ih =>
    intro fi fi' hg h hc ho
    obtain ⟨rfl, ht⟩ : klass = fi.klass ∧ fi.ftype = .STRUCT := by
      cases hc with
      | struct _ _ _ _ _ type => exact ⟨rfl, type⟩
    exact transfers_obj hnames hev hg h ht (held_of_entries ih) hc ho

end Transfers

theorem deserialize_wireOf {σ : Type} (P : TProtocol σ) (hP : P.Inverse) (hframed : P.Framed)
    {w r : Schema} {κ : VALUE → VALUE} (hnames : Unshadowed r) (hev : Evolves w r κ) {oid : ℕ}
    {klass : VALUE} {eigen : Bool} {ivars : List (ID × Value)} (hk : w.Cached klass)
    (hc : Conforms w (classInfo klass) (.obj oid klass eigen ivars))
    (ho : Ordinary w (classInfo klass) (.obj oid klass eigen ivars)) :
    ∃ N, ∀ n, N ≤ n → ∃ y st, deserialize P r n (κ klass)
        (P.encode (wireOf w (classInfo klass) (.obj oid klass eigen ivars)).tokens) = .ok y st ∧
      Carries w r (newIvar r) (classInfo klass) (classInfo (κ klass))
        (.obj oid klass eigen ivars) y := by
  obtain ⟨fields, hf⟩ := Option.isSome_iff_exists.mp hk
  obtain ⟨fields', hf', -⟩ := hev.table klass fields hf
  have hg : (classInfo klass).Generated w.Cached := generated_classInfo w hk
  have hsame : SameWire κ (classInfo klass) (classInfo (κ klass)) := .struct _ _ rfl rfl rfl
  obtain ⟨hverdict, hcarries⟩ := transfers hnames hev _ _ _ hg hsame hc ho
  have hwf := wireOf_wellFormed hg hc ho
  have hwire : wireOf w (classInfo klass) (.obj oid klass eigen ivars) =
      .struct (fields.entries.filterMap fun e => wireIvar w e ivars) := by
    have hf₁ : w.fieldInfoMap (classInfo klass).klass = some fields := hf
    simp only [wireOf, hf₁]
  rw [hwire] at hverdict hcarries hwf ⊢
  cases hwf with
  | struct _ wf =>
    have hk' : r.Cached (κ klass) := by simp [Schema.Cached, hf']
    obtain ⟨N, hN⟩ := deserialize_framed P hP hframed hk' wf hverdict
    refine ⟨N, fun n hn => ?_⟩
    obtain ⟨st, hst⟩ := hN n hn
    exact ⟨_, st, hst, (hcarries 0).1⟩

section Examples
open BinaryProtocol Loading

def isSameWire (κ : VALUE → VALUE) : FieldInfo → FieldInfo → Bool
  | ⟨t, k, _, _, _, bin, none, none⟩, ⟨t', k', _, _, _, bin', none, none⟩ =>
    t' == t && (if t = .STRUCT then k' == κ k
      else t ∈ [TType.BOOL, .BYTE, .DOUBLE, .I16, .I32, .I64, .STRING] && bin' == bin)
  | ⟨t, _, _, _, _, _, some e, none⟩, ⟨t', _, _, _, _, _, some e', none⟩ =>
    t' == t && t ∈ [TType.LIST, .SET] && isSameWire κ e e'
  | ⟨t, _, _, _, _, _, some e, some k⟩, ⟨t', _, _, _, _, _, some e', some k'⟩ =>
    t' == t && t == .MAP && isSameWire κ e e' && isSameWire κ k k'
  | _, _ => false

theorem sameWire_of_isSameWire {κ : VALUE → VALUE} {fi fi' : FieldInfo}
    (h : isSameWire κ fi fi' = true) : SameWire κ fi fi' := by
  fun_induction isSameWire κ fi fi' with
  | case1 t k _ _ _ bin t' k' =>
    simp only [Bool.and_eq_true, beq_iff_eq] at h
    obtain ⟨type, h⟩ := h
    split at h
    · rename_i wire
      exact .struct _ _ type wire (by simpa using h)
    · simp only [Bool.and_eq_true, decide_eq_true_eq, beq_iff_eq] at h
      exact .scalar _ _ type h.1 h.2
  | case2 _ _ _ _ _ _ _ _ _ _ _ _ _ _ ih =>
    simp only [Bool.and_eq_true, decide_eq_true_eq, beq_iff_eq] at h
    obtain ⟨⟨type, wire⟩, helem⟩ := h
    exact .sequence _ _ _ _ type wire rfl rfl (ih helem)
  | case3 _ _ _ _ _ _ _ _ _ _ _ _ _ _ _ _ ihe ihk =>
    simp only [Bool.and_eq_true, beq_iff_eq] at h
    obtain ⟨⟨⟨type, wire⟩, helem⟩, hkey⟩ := h
    exact .map _ _ _ _ _ _ type wire rfl rfl rfl rfl (ihk hkey) (ihe helem)
  | case4 => cases h

theorem evolves_of_classes {w r : Program} {κ : VALUE → VALUE}
    (h : ∀ c ∈ w.globals.klassCache, r.schema.isUnion (κ c.1) = w.schema.isUnion c.1 ∧
      ∃ fields' ∈ r.schema.fieldInfoMap (κ c.1),
        (∀ e ∈ c.2.entries, ∀ fi' ∈ fields'.find? e.1, isSameWire κ e.2 fi' = true) ∧
        (w.schema.isUnion c.1 = true → ∀ e ∈ c.2.entries,
          ∃ fi' ∈ fields'.find? e.1, fi'.symName ≠ "setfield")) :
    Evolves w.schema r.schema κ where
  isUnion klass hk := by
    obtain ⟨fields, hf⟩ := Option.isSome_iff_exists.mp hk
    exact (h (klass, fields) (SortedMap.mem_of_lookup hf)).1
  table klass fields hf := by
    obtain ⟨-, fields', hf', hsame, hmembers⟩ := h (klass, fields) (SortedMap.mem_of_lookup hf)
    exact ⟨fields', hf', fun e he fi' hfi' => sameWire_of_isSameWire (hsame e he fi' hfi'),
      hmembers⟩

def notSSIvars : List (ID × Value) := [("@id_s", .str .utf8 [97]), ("@id_i32", .int 100)]

end Examples

end Sparsam.SchemaEvolution
