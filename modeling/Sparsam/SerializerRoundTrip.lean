import Sparsam.ObjectAgreement
import Sparsam.SerializerWire

set_option autoImplicit false

/-!
# Reading what was written

The reader runs over `old` on the bytes that the writer made over `new`, a
schema with the same classes and possibly more fields. Unless a constructor
raises, it takes exactly the value written and returns an object that agrees
with it; the objects it makes are new, so keys that were distinct stay distinct.
-/
namespace Sparsam.SerializerRoundTrip
open WireProtocol RubyRuntime FieldInfoCache ExceptionState SerializerWrite SerializerRead
open ObjectMethods DecoderCalls DecoderTyping SerializerConformance SerializerWire
open ObjectAgreement GenericSkip

section Run
variable {σ α β : Type}

/-- From the input `s`, with `lo` the next identity, the run returns at `t` when `G` holds, and
    raises when it does not. -/
def Run (G : Prop) (lo : ℕ) (s t : σ) (x : Reader σ α) (Q : ℕ → α → Prop) : Prop :=
  ∀ st : RState σ, st.input = s → st.nextOid = lo →
    Spec x st (fun a u => G ∧ u.input = t ∧ lo ≤ u.nextOid ∧ Q u.nextOid a)
      fun e _ => ¬ G ∧ e.isRaise = true

variable {G H : Prop} {lo : ℕ} {s t u : σ}

theorem Run.pure {a : α} {Q : ℕ → α → Prop} (hG : G) (h : Q lo a) :
    Run G lo s s (Pure.pure a : Reader σ α) Q := by
  rintro st rfl rfl
  exact Spec.pure ⟨hG, rfl, le_refl _, h⟩

theorem Run.iff {x : Reader σ α} {Q : ℕ → α → Prop} (h : Run G lo s t x Q) (hiff : G ↔ H) :
    Run H lo s t x Q := by
  rw [← propext hiff]
  exact h

theorem Run.bind {x : Reader σ α} {f : α → Reader σ β} {Q : ℕ → α → Prop} {R : ℕ → β → Prop}
    (hx : Run G lo s t x Q) (hf : ∀ mid a, lo ≤ mid → Q mid a → Run H mid t u (f a) R) :
    Run (G ∧ H) lo s u (x >>= f) R := by
  intro st hs hlo
  apply Spec.bind
  refine (hx st hs hlo).mono (fun a v hv => ?_) fun e _ he => ⟨fun h => he.1 h.1, he.2⟩
  obtain ⟨hG, hin, hle, hQ⟩ := hv
  refine (hf v.nextOid a hle hQ v hin rfl).mono (fun b w hw => ?_) fun e _ he =>
    ⟨fun h => he.1 h.2, he.2⟩
  exact ⟨⟨hG, hw.1⟩, hw.2.1, le_trans hle hw.2.2.1, hw.2.2.2⟩

theorem Run.seq {x : Reader σ α} {f : α → Reader σ β} {Q : ℕ → α → Prop} {R : ℕ → β → Prop}
    (hx : Run G lo s t x Q) (hf : ∀ mid a, lo ≤ mid → Q mid a → Run True mid t u (f a) R) :
    Run G lo s u (x >>= f) R :=
  (hx.bind hf).iff (and_iff_left trivial)

theorem Run.mono {x : Reader σ α} {Q R : ℕ → α → Prop} (hx : Run G lo s t x Q)
    (h : ∀ hi a, lo ≤ hi → Q hi a → R hi a) : Run G lo s t x R := fun st hs hlo =>
  (hx st hs hlo).mono (fun a _ hv => ⟨hv.1, hv.2.1, hv.2.2.1, h _ a hv.2.2.1 hv.2.2.2⟩)
    fun _ _ he => he

theorem Run.protocol {f : σ → Except TException (α × σ)} {a : α} {g : α → Reader σ β}
    {R : ℕ → β → Prop} (hf : f s = .ok (a, t)) (hg : Run G lo t u (g a) R) :
    Run G lo s u (SerializerRead.protocol f >>= g) R := by
  intro st hs hlo
  have hrun : SerializerRead.protocol f st = .ok a { st with input := t } := by
    simp only [SerializerRead.protocol, hs, hf]
  refine Spec.bind ?_
  simpa only [Spec, hrun] using hg { st with input := t } rfl hlo

theorem Run.record {e : Event} {g : Unit → Reader σ β} {R : ℕ → β → Prop}
    (hg : Run G lo s u (g ()) R) : Run G lo s u (SerializerRead.record e >>= g) R := by
  intro st hs hlo
  exact Spec.bind (spec_record (hg _ hs hlo))

variable {P : TReader σ}

/-- A loop returns one item for each written one. The identities of an item come
    from its own turn, so no two items share one. -/
theorem run_times {γ : Type} {x : Reader σ β} (toks : γ → List Token) (oids : β → List ℕ)
    (A : γ → β → Prop) (made : γ → Prop) (items : List γ)
    (step : ∀ c ∈ items, ∀ lo s t, P.Consumes s (toks c) t →
      Run (made c) lo s t x fun hi b => A c b ∧ ∀ o ∈ oids b, lo ≤ o ∧ o < hi)
    (h : P.Consumes s (items.flatMap toks) t) :
    Run (∀ c ∈ items, made c) lo s t (times x items.length) fun hi bs => bs.length = items.length ∧
      (∀ p ∈ items.zip bs, A p.1 p.2) ∧ bs.Pairwise (fun b b' => ∀ o ∈ oids b, o ∉ oids b') ∧
      ∀ b ∈ bs, ∀ o ∈ oids b, lo ≤ o ∧ o < hi := by
  induction items generalizing s lo with
  | nil =>
    obtain rfl : s = t := h
    exact Run.pure (by simp) (by simp)
  | cons c items ih =>
    rw [List.flatMap_cons, TReader.consumes_append] at h
    obtain ⟨u, hu, ht⟩ := h
    have hhead := step c (by simp) lo s u hu
    have htail : ∀ mid, Run (∀ d ∈ items, made d) mid u t (times x items.length) _ := fun mid =>
      ih (fun d hd => step d (List.mem_cons_of_mem _ hd)) ht
    refine (hhead.bind fun mid b hmid hb => (htail mid).bind fun hi bs hhi hbs =>
      Run.pure trivial ?_).iff (by simp)
    obtain ⟨hA, hwin⟩ := hb
    obtain ⟨hlen, hzip, hpair, hall⟩ := hbs
    refine ⟨by simp [hlen], ?_, List.pairwise_cons.mpr ⟨?_, hpair⟩, ?_⟩
    · rw [List.zip_cons_cons]
      exact List.forall_mem_cons.mpr ⟨hA, hzip⟩
    · intro b' hb' o ho ho'
      have h1 := hwin o ho
      have h2 := hall b' hb' o ho'
      omega
    · refine List.forall_mem_cons.mpr ⟨fun o ho => ?_, fun b' hb' o ho => ?_⟩
      · have h1 := hwin o ho
        omega
      · have h2 := hall b' hb' o ho
        omega

end Run

section Reader
variable {σ : Type} {P : TProtocol σ} {old new : Schema} {ρ : VALUE → VALUE}

variable (P old new ρ)

/-- With a unit of fuel for each token the reader gives back what was written, unless a
    constructor raises. -/
def ReadsBack (fi : FieldInfo) (v : Value) : Prop :=
  ∀ (site : Site) (n lo : ℕ) (s t : σ),
    P.Consumes s (wireOf new (renameInfo ρ fi) v).tokens t →
    (wireOf new (renameInfo ρ fi) v).tokens.length ≤ n →
    Run (AllMade old fi v) lo s t (readAny P old n site fi.ftype fi) fun hi y =>
      Agrees old (madeIvar old) ρ fi v y ∧ Within old lo hi y

/-- The reader skips only where `new` has a field that `old` has not. -/
def Skips : Prop :=
  ∀ klass fields fields', old.fieldInfoMap klass = some fields →
    new.fieldInfoMap (ρ klass) = some fields' →
    ∀ e ∈ fields'.entries, fields.find? e.1 = none → P.SkipExact

variable {P old new ρ}

theorem readsBack_scalar {fi : FieldInfo} {v : Value} {α : Type} (tok : Token)
    (f : σ → Except TException (α × σ)) (g : α → Value) (a : α)
    (htok : (wireOf new (renameInfo ρ fi) v).tokens = [tok])
    (hread : ∀ s t, P.Reads tok s t → f s = .ok (a, t))
    (hany : ∀ n site, readAny P old (n + 1) site fi.ftype fi = do
      record (.call fi.ftype fi)
      pure (g (← protocol f)))
    (hagrees : Agrees old (madeIvar old) ρ fi v (g a)) (hoids : visibleOids old.isUnion (g a) = [])
    (hmade : AllMade old fi v) : ReadsBack P old new ρ fi v := by
  intro site n lo s t h hn
  rw [htok] at h hn
  obtain ⟨u, hu, rfl⟩ := h
  cases n with
  | zero => simp at hn
  | succ n =>
    rw [hany]
    refine Run.record (Run.protocol (hread s u hu) (Run.pure hmade ?_))
    exact ⟨hagrees, by simp [Within, hoids]⟩

theorem run_elements {e : FieldInfo} {xs : List Value}
    (ih : ∀ x ∈ xs, ReadsBack P old new ρ e x) {n l : ℕ} {s t : σ}
    (h : P.Consumes s (WireValue.elemTokens (wireElems new (renameInfo ρ e) xs)) t)
    (hn : (WireValue.elemTokens (wireElems new (renameInfo ρ e) xs)).length ≤ n) :
    Run (∀ x ∈ xs, AllMade old e x) l s t (times (readAny P old n .element e.ftype e) xs.length)
      fun hi ys => ys.length = xs.length ∧
        (∀ p ∈ xs.zip ys, Agrees old (madeIvar old) ρ e p.1 p.2) ∧
        ys.Pairwise (Apart old.isUnion) ∧ ∀ y ∈ ys, Within old l hi y := by
  rw [WireValue.elemTokens_eq, wireElems_eq, List.flatMap_map] at h hn
  refine run_times _ _ _ _ xs (fun x hx lo s t hc => ?_) h
  have hlen := length_le_flatMap
    (fun x => (wireOf new (renameInfo ρ e) x).tokens) hx
  exact ih x hx .element n lo s t hc (by omega)

theorem run_entries {k e : FieldInfo} {kvs : List (Value × Value)}
    (ihk : ∀ kv ∈ kvs, ReadsBack P old new ρ k kv.1)
    (ihe : ∀ kv ∈ kvs, ReadsBack P old new ρ e kv.2) {n l : ℕ} {s t : σ}
    (h : P.Consumes s
      (WireValue.entryTokens (wireEntries new (renameInfo ρ k) (renameInfo ρ e) kvs)) t)
    (hn : (WireValue.entryTokens
      (wireEntries new (renameInfo ρ k) (renameInfo ρ e) kvs)).length ≤ n) :
    Run (∀ kv ∈ kvs, AllMade old k kv.1 ∧ AllMade old e kv.2) l s t (times (do
        record (.header .key k.ftype k)
        let key ← readAny P old n .key k.ftype k
        record (.header .value e.ftype e)
        let value ← readAny P old n .value e.ftype e
        pure (key, value)) kvs.length) fun hi kvs' =>
      kvs'.length = kvs.length ∧
      (∀ p ∈ kvs.zip kvs', Agrees old (madeIvar old) ρ k p.1.1 p.2.1 ∧
        Agrees old (madeIvar old) ρ e p.1.2 p.2.2) ∧
      kvs'.Pairwise (fun a b => ∀ o ∈ visibleOids old.isUnion a.1 ++ visibleOids old.isUnion a.2,
        o ∉ visibleOids old.isUnion b.1 ++ visibleOids old.isUnion b.2) ∧
      ∀ b ∈ kvs', ∀ o ∈ visibleOids old.isUnion b.1 ++ visibleOids old.isUnion b.2,
        l ≤ o ∧ o < hi := by
  rw [WireValue.entryTokens_eq, wireEntries_eq, List.flatMap_map] at h hn
  dsimp only at h hn
  refine run_times _ (fun b : Value × Value =>
      visibleOids old.isUnion b.1 ++ visibleOids old.isUnion b.2)
    (fun a b : Value × Value => Agrees old (madeIvar old) ρ k a.1 b.1 ∧
      Agrees old (madeIvar old) ρ e a.2 b.2) _ kvs (fun kv hkv lo s t hc => ?_) h
  have hlen := length_le_flatMap (fun kv : Value × Value =>
    (wireOf new (renameInfo ρ k) kv.1).tokens ++ (wireOf new (renameInfo ρ e) kv.2).tokens) hkv
  simp only [List.length_append] at hlen
  rw [TReader.consumes_append] at hc
  obtain ⟨u, hu, ht⟩ := hc
  have hkeyRun := ihk kv hkv .key n lo s u hu (by omega)
  have hvalRun := fun mid => ihe kv hkv .value n mid u t ht (by omega)
  refine (Run.record (hkeyRun.bind fun mid key hmid hkey => Run.record ((hvalRun mid).bind
    fun hi value hhi hval => Run.pure trivial ?_))).iff (by simp)
  refine ⟨⟨hkey.1, hval.1⟩, fun o ho => ?_⟩
  rcases List.mem_append.mp ho with ho | ho
  · have h1 := hkey.2 o ho
    omega
  · have h2 := hval.2 o ho
    omega

theorem pairwise_distinct (hext : Extends old new ρ) {γ δ : Type} {fi : FieldInfo} {xs : List γ}
    {ys : List δ} (key : γ → Value) (key' : δ → Value) (size : ys.length = xs.length)
    (agrees : ∀ p ∈ xs.zip ys, Agrees old (madeIvar old) ρ fi (key p.1) (key' p.2))
    (apart : ys.Pairwise fun a b => Apart old.isUnion (key' a) (key' b))
    (distinct : xs.Pairwise fun a b => sameKey new.isUnion (key a) (key b) = false) :
    ys.Pairwise fun a b => sameKey old.isUnion (key' a) (key' b) = false :=
  pairwise_apart key key' size (fun p hp => (agrees p hp).carries hext) apart distinct

theorem run_newInstance {klass : VALUE} {fields : FieldInfoMap}
    (hf : old.fieldInfoMap klass = some fields) (lo : ℕ) (s : σ) :
    Run (Makes old klass) lo s s (newInstance old klass : Reader σ Instance) fun hi ret =>
      hi = lo + 1 ∧ ret = ⟨lo, klass, newIvars old klass⟩ := by
  by_cases hmakes : Makes old klass
  · rw [newInstance_makes old hf hmakes]
    refine Run.record ?_
    rintro st rfl rfl
    exact Spec.bind (spec_newOid (Spec.pure ⟨hmakes, rfl, Nat.le_succ _, rfl, rfl⟩))
  · obtain ⟨e, hraise, hnew⟩ := newInstance_raises (σ := σ) old hf hmakes
    rw [hnew]
    refine Run.record ?_
    rintro st rfl rfl
    exact Spec.bind (spec_newOid (Spec.throw ⟨hmakes, hraise⟩))

theorem run_findFieldInfoMap {α : Type} {klass : VALUE} {fields : FieldInfoMap}
    (hf : old.fieldInfoMap klass = some fields) {lo : ℕ} {s t : σ} {g : FieldInfoMap → Reader σ α}
    {G : Prop} {R : ℕ → α → Prop} (hg : Run G lo s t (g fields) R) :
    Run G lo s t (findFieldInfoMap old klass >>= g) R := by
  unfold findFieldInfoMap
  rw [hf]
  exact hg

/-- An entry of the writer's table whose value, if there is one, the reader takes:
    under the same definition, or by skipping it. -/
structure Taken (P : TProtocol σ) (old new : Schema) (ρ : VALUE → VALUE) (fields : FieldInfoMap)
    (ivars : List (ID × Value)) (e : Int16 × FieldInfo) : Prop where
  known : ∀ fi, fields.find? e.1 = some fi → e.2 = renameInfo ρ fi
  type : ivarGet ivars e.2.ivarName ≠ .nil →
    (wireOf new e.2 (ivarGet ivars e.2.ivarName)).type = e.2.ftype
  read : ∀ fi, fields.find? e.1 = some fi → ivarGet ivars e.2.ivarName ≠ .nil →
    ReadsBack P old new ρ fi (ivarGet ivars e.2.ivarName)
  skip : fields.find? e.1 = none → ivarGet ivars e.2.ivarName ≠ .nil → ∀ s t,
    P.Consumes s (wireOf new e.2 (ivarGet ivars e.2.ivarName)).tokens t →
    P.skip (wireOf new e.2 (ivarGet ivars e.2.ivarName)).type s = .ok ((), t)

/-- What a value of a field is read as. -/
def ReadAs (old : Schema) (ρ : VALUE → VALUE) (_ fi : FieldInfo) (v y : Value) : Prop :=
  Agrees old (madeIvar old) ρ fi v y

/-- The objects inside the fields that `old` knows can be made. -/
def FieldsMade (old : Schema) (fields : FieldInfoMap) (es : List (Int16 × FieldInfo))
    (ivars : List (ID × Value)) : Prop :=
  ∀ e ∈ es, ∀ fi, fields.find? e.1 = some fi → ivarGet ivars e.2.ivarName ≠ .nil →
    AllMade old fi (ivarGet ivars e.2.ivarName)

section FieldsMade
variable {fields : FieldInfoMap} {e : Int16 × FieldInfo} {es : List (Int16 × FieldInfo)}
  {ivars : List (ID × Value)}

theorem fieldsMade_keep
    (hkeep : ∀ fi, fields.find? e.1 = some fi → ivarGet ivars e.2.ivarName = .nil) :
    FieldsMade old fields es ivars ↔ FieldsMade old fields (e :: es) ivars := by
  unfold FieldsMade
  rw [List.forall_mem_cons]
  exact (and_iff_right fun fi hfi hne => absurd (hkeep fi hfi) hne).symm

theorem fieldsMade_set {fi : FieldInfo} (hfind : fields.find? e.1 = some fi)
    (hne : ivarGet ivars e.2.ivarName ≠ .nil) :
    AllMade old fi (ivarGet ivars e.2.ivarName) ∧ FieldsMade old fields es ivars ↔
      FieldsMade old fields (e :: es) ivars := by
  unfold FieldsMade
  rw [List.forall_mem_cons]
  refine and_congr_left fun _ => ⟨fun h fi' hfi' _ => ?_, fun h => h fi hfind hne⟩
  obtain rfl : fi = fi' := Option.some.inj (hfind.symm.trans hfi')
  exact h

theorem fieldsMade_iff (hext : Extends old new ρ) {klass : VALUE} {fields' : FieldInfoMap}
    (hf : old.fieldInfoMap klass = some fields) (hf' : new.fieldInfoMap (ρ klass) = some fields') :
    FieldsMade old fields fields'.entries ivars ↔ ∀ e ∈ fields.entries,
      ivarGet ivars e.2.ivarName ≠ .nil → AllMade old e.2 (ivarGet ivars e.2.ivarName) := by
  obtain ⟨fields'', hf'', hall, -⟩ := hext.table klass fields hf
  obtain rfl : fields' = fields'' := Option.some.inj (hf'.symm.trans hf'')
  constructor
  · intro h e he hne
    have hentry := h (e.1, renameInfo ρ e.2) (hall e he) e.2
      ((fields.find?_eq_some_iff e.1 e.2).mpr he)
    rw [renameInfo_ivarName] at hentry
    exact hentry hne
  · intro h e he fi hfi hne
    have hname : e.2.ivarName = fi.ivarName := by
      rw [known_eq hext hf hf' he hfi, renameInfo_ivarName]
    rw [hname] at hne ⊢
    exact h (e.1, fi) ((fields.find?_eq_some_iff e.1 fi).mp hfi) hne

end FieldsMade

/-- The fields of the writer's table in order: one that is nil was not written,
    one that `old` has not is skipped, the others set their instance variables. -/
theorem run_readFields {klass : VALUE} {fields : FieldInfoMap}
    (hf : old.fieldInfoMap klass = some fields) {ivars : List (ID × Value)}
    {es : List (Int16 × FieldInfo)} (hnodup : (es.map Prod.fst).Nodup)
    (taken : ∀ e ∈ es, Taken P old new ρ fields ivars e)
    (ret : Instance) {n lo : ℕ} {s t : σ}
    (h : P.Consumes s (WireValue.bodyTokens (es.filterMap fun e => wireIvar new e ivars)) t)
    (hn : (WireValue.bodyTokens (es.filterMap fun e => wireIvar new e ivars)).length ≤ n) :
    Run (FieldsMade old fields es ivars) lo s t (readFields P old n klass fields ret) fun _ y =>
      ∃ after, y = .obj ret.oid ret.klass false after ∧
        Filled (ReadAs old ρ) fields es ivars ret.ivars after := by
  induction es generalizing s n lo ret with
  | nil =>
    obtain ⟨u, ⟨fid, hu⟩, rfl⟩ := h
    cases n with
    | zero => simp [WireValue.bodyTokens] at hn
    | succ n =>
      have hmade : FieldsMade old fields [] ivars := fun _ he => absurd he List.not_mem_nil
      rw [readFields]
      exact Run.protocol hu (Run.pure hmade ⟨ret.ivars, rfl, Filled.nil⟩)
  | cons e es ihes =>
    obtain ⟨hnotin, hnodup⟩ := List.nodup_cons.mp hnodup
    obtain ⟨head, htaken⟩ := List.forall_mem_cons.mp taken
    have hrest := @ihes hnodup htaken
    have hivar := wireIvar_eq new e ivars
    by_cases hnil : ivarGet ivars e.2.ivarName = .nil
    · -- Nothing was written for this field.
      rw [hnil, Value.isNil, if_pos rfl] at hivar
      rw [List.filterMap_cons_none (f := fun e => wireIvar new e ivars) hivar] at h hn
      have hkeep : ∀ fi, fields.find? e.1 = some fi → ivarGet ivars e.2.ivarName = .nil :=
        fun _ _ => hnil
      refine ((hrest ret h hn).mono fun _ y _ hy => ?_).iff (fieldsMade_keep hkeep)
      obtain ⟨after, rfl, hafter⟩ := hy
      exact ⟨after, rfl, hafter.keep hkeep⟩
    · have hne : ¬ (ivarGet ivars e.2.ivarName).isNil = true := by rwa [Value.isNil_eq_true]
      rw [if_neg hne] at hivar
      rw [List.filterMap_cons_some (f := fun e => wireIvar new e ivars) hivar,
        WireValue.bodyTokens_cons] at h hn
      obtain ⟨u, hu, h⟩ := h
      rw [TReader.consumes_append] at h
      obtain ⟨v, hv, w, hend, h⟩ := h
      simp only [List.length_cons, List.length_append] at hn
      cases n with
      | zero => omega
      | succ n =>
        have htype := head.type hnil
        rw [readFields]
        refine Run.protocol hu ?_
        simp only [WireValue.type_ne_stop, ↓reduceIte]
        cases hfind : fields.find? e.1 with
        | none =>
          have hkeep : ∀ fi, fields.find? e.1 = some fi → ivarGet ivars e.2.ivarName = .nil := by
            intro fi hfi
            rw [hfind] at hfi
            cases hfi
          refine Run.protocol (head.skip hfind hnil u v hv) (Run.protocol hend ?_)
          refine ((hrest ret h (by omega)).mono fun _ y _ hy => ?_).iff (fieldsMade_keep hkeep)
          obtain ⟨after, rfl, hafter⟩ := hy
          exact ⟨after, rfl, hafter.keep hkeep⟩
        | some fi =>
          have hfi := head.known fi hfind
          have hft : fi.ftype = (wireOf new e.2 (ivarGet ivars e.2.ivarName)).type := by
            rw [htype, hfi, renameInfo_ftype]
          simp only [← hft, ne_eq, not_true_eq_false, ↓reduceIte]
          have hread := head.read fi hfind hnil .field n lo u v
          rw [← hfi] at hread
          refine ((hread hv (by omega)).bind fun mid y _ hy => Run.protocol hend ?_).iff
            (fieldsMade_set hfind hnil)
          have hynil : ¬ y.isNil = true := by
            rw [Value.isNil_eq_true]
            exact hy.1.ne_nil.2
          rw [if_neg hynil]
          refine (hrest (ret.set fi.ivarName y) h (by omega)).mono fun _ z _ hz => ?_
          obtain ⟨after, rfl, hafter⟩ := hz
          exact ⟨after, rfl, hafter.set hfind (alone_of_nodup hf hnotin hfind) hnil hy.1⟩

def ReadBack (P : TProtocol σ) (old new : Schema) (ρ : VALUE → VALUE) (v : Value) : Prop :=
  ∀ fi : FieldInfo, fi.Generated old.Cached → Conforms new (renameInfo ρ fi) v →
    Ordinary new (renameInfo ρ fi) v → ReadsBack P old new ρ fi v

theorem run_readStruct (hext : Extends old new ρ) (hskip : Skips P old new ρ) {fi : FieldInfo}
    {fields fields' : FieldInfoMap} (hf : old.fieldInfoMap fi.klass = some fields)
    (hf' : new.fieldInfoMap (ρ fi.klass) = some fields') (hu : old.isUnion fi.klass = false)
    {ivars : List (ID × Value)} (ih : Held (ReadBack P old new ρ) ivars)
    (held : ∀ e ∈ fields'.entries, ivarGet ivars e.2.ivarName ≠ .nil →
      Conforms new e.2 (ivarGet ivars e.2.ivarName) ∧ Ordinary new e.2 (ivarGet ivars e.2.ivarName))
    (oid : ℕ) (eigen : Bool) {n lo : ℕ} {s t : σ}
    (h : P.Consumes s (WireValue.bodyTokens
      (fields'.entries.filterMap fun e => wireIvar new e ivars)) t)
    (hn : (WireValue.bodyTokens
      (fields'.entries.filterMap fun e => wireIvar new e ivars)).length < n) :
    Run (AllMade old fi (.obj oid (ρ fi.klass) eigen ivars)) lo s t (readStruct P old n fi.klass)
      fun hi y => Agrees old (madeIvar old) ρ fi (.obj oid (ρ fi.klass) eigen ivars) y ∧
        Within old lo hi y := by
  have taken : ∀ e ∈ fields'.entries, Taken P old new ρ fields ivars e := by
    intro e he
    refine ⟨fun fi' hfi' => known_eq hext hf hf' he hfi', fun hne => wireOf_type (held e he hne).1,
      fun fi' hfi' hne => ?_, fun hfind hne s t hc => ?_⟩
    · have heq := known_eq hext hf hf' he hfi'
      have hboth := held e he hne
      rw [heq] at hboth hne ⊢
      exact ih _ hne fi' (generated_find hf hfi') hboth.1 hboth.2
    · obtain ⟨hconforms, hord⟩ := held e he hne
      exact hskip fi.klass fields fields' hf hf' e he hfind _ s t
        (wireOf_wellFormed (new.generated _ fields' hf' e he) hconforms hord) hc
  have hmade : Makes old fi.klass ∧ FieldsMade old fields fields'.entries ivars ↔
      AllMade old fi (.obj oid (ρ fi.klass) eigen ivars) := by
    rw [fieldsMade_iff hext hf hf']
    exact (allMade_struct hf hu).symm
  cases n with
  | zero => omega
  | succ n =>
    rw [readStruct]
    refine ((run_newInstance hf lo s).bind
      fun mid ret _ hret => run_findFieldInfoMap hf ?_).iff hmade
    obtain ⟨rfl, rfl⟩ := hret
    refine (run_readFields hf (entries_nodup fields') taken _ h (by omega)).mono ?_
    rintro hi y hle ⟨after, rfl, hheld, hrest⟩
    constructor
    · refine .struct fi oid lo eigen ivars after fields hf hu (fun e he hne => ?_)
        fun name hname => ?_
      · obtain ⟨fields'', hf'', hall, _⟩ := hext.table fi.klass fields hf
        obtain rfl : fields' = fields'' := Option.some.inj (hf'.symm.trans hf'')
        have hentry := hheld _ (hall e he) e.2 ((fields.find?_eq_some_iff e.1 e.2).mpr he)
        rw [renameInfo_ivarName] at hentry
        exact hentry hne
      · rw [hrest name fun e he fi' hfi' hn => ?_]
        · rfl
        · have hivar : e.2.ivarName = fi'.ivarName := by
            rw [known_eq hext hf hf' he hfi', renameInfo_ivarName]
          rw [hivar, hn]
          exact hname (e.1, fi') ((fields.find?_eq_some_iff e.1 fi').mp hfi') hn
    · intro o ho
      rw [visibleOids_struct hu, List.mem_singleton] at ho
      have hlo : o = lo := ho
      omega

theorem filterMap_eq_singleton {α β : Type} {f : α → Option β} {xs : List α} {x : α} {y : β}
    (hnodup : xs.Nodup) (hx : x ∈ xs) (hy : f x = some y)
    (hrest : ∀ x' ∈ xs, x' ≠ x → f x' = none) : xs.filterMap f = [y] := by
  induction xs with
  | nil => simp at hx
  | cons a xs ih =>
    obtain ⟨hnotin, hnodup⟩ := List.nodup_cons.mp hnodup
    by_cases ha : a = x
    · subst ha
      rw [List.filterMap_cons_some hy]
      have hnil : xs.filterMap f = [] := by
        rw [List.filterMap_eq_nil_iff]
        intro x' hx'
        exact hrest x' (List.mem_cons_of_mem _ hx') fun heq => hnotin (heq ▸ hx')
      rw [hnil]
    · have hxs : x ∈ xs := (List.mem_cons.mp hx).resolve_left fun h => ha h.symm
      rw [List.filterMap_cons_none (hrest a (by simp) ha)]
      exact ih hnodup hxs fun x' hx' => hrest x' (List.mem_cons_of_mem _ hx')

theorem run_readUnion_unset {fi : FieldInfo} {fields : FieldInfoMap}
    (hf : old.fieldInfoMap fi.klass = some fields) (hu : old.isUnion fi.klass = true)
    {ivars : List (ID × Value)} (tag : setField ivars = none) (oid : ℕ) (eigen : Bool) {n lo : ℕ}
    {s t : σ} (h : P.Consumes s (WireValue.bodyTokens []) t) (hn : 1 ≤ n) :
    Run (AllMade old fi (.obj oid (ρ fi.klass) eigen ivars)) lo s t (readUnion P old n fi.klass)
      fun hi y => Agrees old (madeIvar old) ρ fi (.obj oid (ρ fi.klass) eigen ivars) y ∧
        Within old lo hi y := by
  obtain ⟨u, ⟨fid, hu'⟩, rfl⟩ := h
  have hmade : Makes old fi.klass ∧ True ↔ AllMade old fi (.obj oid (ρ fi.klass) eigen ivars) := by
    rw [and_true]
    exact (allMade_unset hf hu tag).symm
  cases n with
  | zero => omega
  | succ n =>
    rw [readUnion]
    refine ((run_newInstance hf lo s).bind
      fun mid ret _ hret => run_findFieldInfoMap hf ?_).iff hmade
    obtain ⟨rfl, rfl⟩ := hret
    refine Run.protocol hu' (Run.pure trivial ?_)
    rw [Instance.toValue, newIvars_union hf hu]
    refine ⟨.unset fi oid _ eigen ivars [] fields hf hu tag fun _ => rfl, fun o ho => ?_⟩
    rw [visibleOids_union hu] at ho
    simp [ivarOids] at ho

theorem run_readUnion {fi : FieldInfo} {fields : FieldInfoMap}
    (hf : old.fieldInfoMap fi.klass = some fields) (hu : old.isUnion fi.klass = true)
    {e : Int16 × FieldInfo} (he : e ∈ fields.entries) (name : e.2.symName ≠ "setfield")
    {ivars : List (ID × Value)} (tag : setField ivars = some e.2.symName)
    (type : (wireOf new (renameInfo ρ e.2) (ivarGet ivars e.2.ivarName)).type = e.2.ftype)
    (ih : ReadsBack P old new ρ e.2 (ivarGet ivars e.2.ivarName)) (oid : ℕ) (eigen : Bool)
    {n lo : ℕ} {s t : σ}
    (h : P.Consumes s (WireValue.bodyTokens
      [(e.1, wireOf new (renameInfo ρ e.2) (ivarGet ivars e.2.ivarName))]) t)
    (hn : (WireValue.bodyTokens
      [(e.1, wireOf new (renameInfo ρ e.2) (ivarGet ivars e.2.ivarName))]).length < n) :
    Run (AllMade old fi (.obj oid (ρ fi.klass) eigen ivars)) lo s t (readUnion P old n fi.klass)
      fun hi y => Agrees old (madeIvar old) ρ fi (.obj oid (ρ fi.klass) eigen ivars) y ∧
        Within old lo hi y := by
  rw [WireValue.bodyTokens_cons] at h hn
  obtain ⟨u, hu', h⟩ := h
  rw [TReader.consumes_append] at h
  obtain ⟨v, hv, w, hend, z, ⟨fid, hz⟩, rfl⟩ := h
  simp only [List.length_cons, List.length_append] at hn
  have hmade : Makes old fi.klass ∧ AllMade old e.2 (ivarGet ivars e.2.ivarName) ∧ True ↔
      AllMade old fi (.obj oid (ρ fi.klass) eigen ivars) := by
    rw [and_true]
    exact (allMade_union hf hu he tag).symm
  cases n with
  | zero => omega
  | succ n =>
    rw [readUnion]
    refine ((run_newInstance hf lo s).bind
      fun mid ret _ hret => run_findFieldInfoMap hf ?_).iff hmade
    obtain ⟨rfl, rfl⟩ := hret
    refine Run.protocol hu' ?_
    have hstop : e.2.ftype ≠ .STOP := by
      rw [← type]
      exact WireValue.type_ne_stop _
    simp only [type, hstop, ↓reduceIte, (fields.find?_eq_some_iff e.1 e.2).mpr he]
    refine Run.record ((ih .member n _ u v hv (by omega)).bind fun hi y _ hy => ?_)
    refine Run.protocol hend (Run.protocol hz (Run.pure trivial ?_))
    have hynil : ¬ y.isNil = true := by
      rw [Value.isNil_eq_true]
      exact hy.1.ne_nil.2
    have hname := old.ivarName fi.klass fields hf e he
    have htag : e.2.ivarName ≠ "@setfield" := by
      have hset : "@setfield" = "@" ++ "setfield" := by decide
      rw [hname, hset, ne_eq, String.append_right_inj]
      exact name
    rw [if_neg hynil]
    simp only [Instance.toValue, Instance.set, newIvars_union hf hu]
    constructor
    · refine .union fi oid _ eigen ivars _ fields e hf hu he tag ?_ ?_ fun n' h1 h2 => ?_
      · rw [setField, ivarGet_ivarSet, if_neg htag]
        rfl
      · rw [ivarGet_ivarSet, if_pos rfl]
        exact hy.1
      · rw [ivarGet_ivarSet, if_neg (Ne.symm h2), ivarGet_ivarSet, if_neg (Ne.symm h1)]
        rfl
    · intro o ho
      have hiv : ivarSet (ivarSet [] "@setfield" (.sym e.2.symName)) e.2.ivarName y =
          [("@setfield", .sym e.2.symName), (e.2.ivarName, y)] := by
        simp [ivarSet, Ne.symm htag]
      rw [visibleOids_union hu, hiv] at ho
      simp only [ivarOids, visibleOids, List.nil_append, List.append_nil] at ho
      have hwin := hy.2 o ho
      omega

/-- The reader of an object, whichever the class is, up to the end call. -/
theorem run_object (hext : Extends old new ρ) (hskip : Skips P old new ρ) {fi : FieldInfo}
    (hg : fi.Generated old.Cached) (ht : fi.ftype = .STRUCT) {oid : ℕ} {eigen : Bool}
    {ivars : List (ID × Value)} (ih : Held (ReadBack P old new ρ) ivars)
    (hc : Conforms new (renameInfo ρ fi) (.obj oid (ρ fi.klass) eigen ivars))
    (ho : Ordinary new (renameInfo ρ fi) (.obj oid (ρ fi.klass) eigen ivars)) :
    ∃ fs, wireOf new (renameInfo ρ fi) (.obj oid (ρ fi.klass) eigen ivars) = .struct fs ∧
      ∀ (n lo : ℕ) (s t : σ), P.Consumes s (WireValue.bodyTokens fs) t →
        (WireValue.bodyTokens fs).length < n →
        Run (AllMade old fi (.obj oid (ρ fi.klass) eigen ivars)) lo s t
          (if old.isUnion fi.klass then readUnion P old n fi.klass else readStruct P old n fi.klass)
          fun hi y => Agrees old (madeIvar old) ρ fi (.obj oid (ρ fi.klass) eigen ivars) y ∧
            Within old lo hi y := by
  obtain ⟨fields, hf⟩ := Option.isSome_iff_exists.mp (generated_klass hg ht)
  obtain ⟨fields', hf', hall, hunion⟩ := hext.table fi.klass fields hf
  have hisUnion := hext.isUnion fi.klass (generated_klass hg ht)
  have hheld : ∀ e ∈ fields'.entries, ivarGet ivars e.2.ivarName ≠ .nil →
      Conforms new e.2 (ivarGet ivars e.2.ivarName) := by
    generalize hk : ρ fi.klass = k at hc hf'
    cases hc with
    | struct _ _ _ _ fields'' _ table _ held =>
      rw [renameInfo_klass, hk] at table
      obtain rfl : fields' = fields'' := Option.some.inj (hf'.symm.trans table)
      exact held
  refine ⟨fields'.entries.filterMap fun e => wireIvar new e ivars, ?_, fun n lo s t h hn => ?_⟩
  · rw [wireOf, renameInfo_klass, hf']
  cases ho with
  | struct _ _ _ _ _ fields'' table isStruct held =>
    rw [renameInfo_klass] at table isStruct
    obtain rfl : fields' = fields'' := Option.some.inj (hf'.symm.trans table)
    have hu : old.isUnion fi.klass = false := by rw [← hisUnion, isStruct]
    rw [hu]
    exact run_readStruct hext hskip hf hf' hu ih (fun e he hne => ⟨hheld e he hne, held e he hne⟩)
      oid eigen h hn
  | unset _ _ _ _ _ fields'' table isUnion tag unset =>
    rw [renameInfo_klass] at table isUnion
    obtain rfl : fields' = fields'' := Option.some.inj (hf'.symm.trans table)
    have hu : old.isUnion fi.klass = true := by rw [← hisUnion, isUnion]
    have hnil : (fields'.entries.filterMap fun e => wireIvar new e ivars) = [] := by
      rw [List.filterMap_eq_nil_iff]
      intro e he
      rw [wireIvar_eq, unset e he, Value.isNil, if_pos rfl]
    rw [hnil] at h hn
    rw [hu]
    exact run_readUnion_unset hf hu tag oid eigen h (by omega)
  | union _ _ _ _ _ fields'' e' table isUnion member name tag value only held =>
    rw [renameInfo_klass] at table isUnion
    obtain rfl : fields' = fields'' := Option.some.inj (hf'.symm.trans table)
    have hu : old.isUnion fi.klass = true := by rw [← hisUnion, isUnion]
    obtain ⟨e, he, rfl⟩ := hunion hu e' member
    have hconforms := hheld _ member value
    simp only [renameInfo_ivarName, renameInfo_symName] at value only tag held name hconforms
    have hone : (fields'.entries.filterMap fun e => wireIvar new e ivars) =
        [(e.1, wireOf new (renameInfo ρ e.2) (ivarGet ivars e.2.ivarName))] := by
      refine filterMap_eq_singleton (List.Nodup.of_map _ (new.names _ fields' hf')) member ?_ ?_
      · rw [wireIvar_eq, renameInfo_ivarName, if_neg (by rwa [Value.isNil_eq_true])]
      · intro e'' he'' hne
        rw [wireIvar_eq, only e'' he'' hne, Value.isNil, if_pos rfl]
    rw [hone] at h hn
    rw [hu]
    have htype : (wireOf new (renameInfo ρ e.2) (ivarGet ivars e.2.ivarName)).type = e.2.ftype := by
      rw [wireOf_type hconforms, renameInfo_ftype]
    exact run_readUnion hf hu he name tag htype
      (ih _ value e.2 (old.generated _ fields hf e he) hconforms held) oid eigen h hn

theorem elem_eq {fi e : FieldInfo} (he : fi.elementType = some e) {e' : FieldInfo}
    (he' : (renameInfo ρ fi).elementType = some e') : e' = renameInfo ρ e := by
  rw [renameInfo_elementType, he] at he'
  exact (Option.some.inj he').symm

theorem key_eq {fi k : FieldInfo} (hk : fi.keyType = some k) {k' : FieldInfo}
    (hk' : (renameInfo ρ fi).keyType = some k') : k' = renameInfo ρ k := by
  rw [renameInfo_keyType, hk] at hk'
  exact (Option.some.inj hk').symm

theorem readsBack_int {fi : FieldInfo} {n : ℤ} (range : inWidth fi.ftype n = true) :
    ReadsBack P old new ρ fi (.int n) := by
  have agrees : ∀ m : ℤ, m = n → Agrees old (madeIvar old) ρ fi (.int n) (.int m) := by
    rintro m rfl
    exact .int fi m
  have hmade : AllMade old fi (.int n) := fun _ _ hr => by cases hr
  cases ht : fi.ftype with
  | I16 =>
    simp only [ht, inWidth, decide_eq_true_eq] at range
    refine readsBack_scalar (.i16 (Int16.ofInt n)) P.readI16 (fun a => .int a.toInt) _ ?_
      (fun _ _ h => h) (fun _ _ => by rw [ht]; rfl) ?_ rfl hmade
    · simp only [wireOf, renameInfo_ftype, ht, WireValue.tokens]
    · exact agrees _ (Int16.toInt_ofInt_of_le range.1 range.2)
  | I32 =>
    simp only [ht, inWidth, decide_eq_true_eq] at range
    refine readsBack_scalar (.i32 (Int32.ofInt n)) P.readI32 (fun a => .int a.toInt) _ ?_
      (fun _ _ h => h) (fun _ _ => by rw [ht]; rfl) ?_ rfl hmade
    · simp only [wireOf, renameInfo_ftype, ht, WireValue.tokens]
    · exact agrees _ (Int32.toInt_ofInt_of_le range.1 range.2)
  | I64 =>
    simp only [ht, inWidth, decide_eq_true_eq] at range
    refine readsBack_scalar (.i64 (Int64.ofInt n)) P.readI64 (fun a => .int a.toInt) _ ?_
      (fun _ _ h => h) (fun _ _ => by rw [ht]; rfl) ?_ rfl hmade
    · simp only [wireOf, renameInfo_ftype, ht, WireValue.tokens]
    · exact agrees _ (Int64.toInt_ofInt_of_le range.1 range.2)
  | BYTE =>
    simp only [ht, inWidth, decide_eq_true_eq] at range
    refine readsBack_scalar (.byte (Int8.ofInt n)) P.readByte (fun a => .int a.toInt) _ ?_
      (fun _ _ h => h) (fun _ _ => by rw [ht]; rfl) ?_ rfl hmade
    · simp only [wireOf, renameInfo_ftype, ht, WireValue.tokens]
    · exact agrees _ (Int8.toInt_ofInt_of_le range.1 range.2)
  | _ => simp [ht, inWidth] at range

theorem readsBack_str {fi : FieldInfo} (type : fi.ftype = .STRING) (bytes : List UInt8) :
    ReadsBack P old new ρ fi (.str (if fi.isBinaryString then .binary else .utf8) bytes) := by
  have hmade : ∀ enc, AllMade old fi (.str enc bytes) := fun _ _ _ hr => by cases hr
  cases hb : fi.isBinaryString with
  | true =>
    refine readsBack_scalar (.binary bytes) P.readBinary (.str .binary) bytes ?_ (fun _ _ h => h)
      (fun n site => ?_) (.string fi .binary bytes) rfl (hmade _)
    · simp only [wireOf, renameInfo_isBinaryString, hb, WireValue.tokens]
    · rw [type]
      unfold readAny
      simp only [hb, ↓reduceIte]
  | false =>
    refine readsBack_scalar (.string bytes) P.readString (.str .utf8) bytes ?_ (fun _ _ h => h)
      (fun n site => ?_) (.string fi .utf8 bytes) rfl (hmade _)
    · simp only [wireOf, renameInfo_isBinaryString, hb, WireValue.tokens]
    · rw [type]
      unfold readAny
      simp only [hb, Bool.false_eq_true, ↓reduceIte]

theorem readsBack_ary {fi e : FieldInfo} {xs : List Value} (type : fi.ftype = .LIST)
    (element : fi.elementType = some e) (size : xs.length < 2 ^ 31)
    (ih : ∀ x ∈ xs, ReadsBack P old new ρ e x) : ReadsBack P old new ρ fi (.ary xs) := by
  intro site n lo s t h hn
  simp only [wireOf, renameInfo_elementType, element, Option.map_some, WireValue.tokens,
    renameInfo_ftype] at h hn
  obtain ⟨u, hu, h⟩ := h
  rw [TReader.consumes_append] at h
  obtain ⟨v, hv, w, hend, rfl⟩ := h
  simp only [List.length_cons, List.length_append] at hn
  cases n with
  | zero => omega
  | succ n =>
    rw [type]
    unfold readAny
    refine Run.record (Run.protocol hu ?_)
    have hlen : (wireElems new (renameInfo ρ e) xs).length = xs.length := by
      rw [wireElems_eq, List.length_map]
    simp only [hlen, ofNat_toNat_lt size, element, ne_eq, not_true_eq_false, ↓reduceIte]
    have hloop := run_elements (l := lo) ih hv (by omega : _ ≤ n)
    refine Run.seq (hloop.iff (everywhere_ary element).symm) fun hi ys _ hys =>
      Run.protocol hend (Run.pure trivial ?_)
    obtain ⟨hsize, hagrees, -, hwin⟩ := hys
    exact ⟨.list fi e xs ys element hsize hagrees, within_elems hwin⟩

theorem readsBack_set (hP : P.SharedList) (hext : Extends old new ρ) {fi e : FieldInfo}
    {xs : List Value} (type : fi.ftype = .SET) (element : fi.elementType = some e)
    (size : xs.length < 2 ^ 31)
    (distinct : xs.Pairwise fun x y => sameKey new.isUnion x y = false)
    (ih : ∀ x ∈ xs, ReadsBack P old new ρ e x) : ReadsBack P old new ρ fi (.set xs) := by
  intro site n lo s t h hn
  simp only [wireOf, renameInfo_elementType, element, Option.map_some, WireValue.tokens,
    renameInfo_ftype] at h hn
  obtain ⟨u, hu, h⟩ := h
  rw [TReader.consumes_append] at h
  obtain ⟨v, hv, w, hend, rfl⟩ := h
  simp only [List.length_cons, List.length_append] at hn
  cases n with
  | zero => omega
  | succ n =>
    rw [type]
    unfold readAny
    refine Run.record (Run.protocol ((hP.setBegin s).trans hu) ?_)
    have hlen : (wireElems new (renameInfo ρ e) xs).length = xs.length := by
      rw [wireElems_eq, List.length_map]
    simp only [hlen, ofNat_toNat_lt size, element, ne_eq, not_true_eq_false, ↓reduceIte]
    have hloop := run_elements (l := lo) ih hv (by omega : _ ≤ n)
    refine Run.seq (hloop.iff (everywhere_set element).symm) fun hi ys _ hys =>
      Run.protocol ((hP.setEnd v).trans hend) (Run.pure trivial ?_)
    obtain ⟨hsize, hagrees, hapart, hwin⟩ := hys
    have hnew : setNew old.isUnion ys = ys :=
      setNew_of_pairwise _ (pairwise_distinct hext id id hsize hagrees hapart distinct)
    rw [hnew]
    exact ⟨.set fi e xs ys element hsize hagrees, within_elems hwin⟩

theorem readsBack_hash (hext : Extends old new ρ) {fi k e : FieldInfo}
    {kvs : List (Value × Value)} (type : fi.ftype = .MAP) (key : fi.keyType = some k)
    (element : fi.elementType = some e) (size : kvs.length < 2 ^ 31)
    (distinct : kvs.Pairwise fun x y => sameKey new.isUnion x.1 y.1 = false)
    (ihk : ∀ kv ∈ kvs, ReadsBack P old new ρ k kv.1)
    (ihe : ∀ kv ∈ kvs, ReadsBack P old new ρ e kv.2) : ReadsBack P old new ρ fi (.hash kvs) := by
  intro site n lo s t h hn
  simp only [wireOf, renameInfo_elementType, renameInfo_keyType, key, element, Option.map_some,
    WireValue.tokens, renameInfo_ftype] at h hn
  obtain ⟨u, ⟨kt, vt, hu, htypes⟩, h⟩ := h
  rw [TReader.consumes_append] at h
  obtain ⟨v, hv, w, hend, rfl⟩ := h
  simp only [List.length_cons, List.length_append] at hn
  have hlen : (wireEntries new (renameInfo ρ k) (renameInfo ρ e) kvs).length = kvs.length := by
    rw [wireEntries_eq, List.length_map]
  rw [hlen] at hu htypes
  cases n with
  | zero => omega
  | succ n =>
    rw [type]
    unfold readAny
    refine Run.record (Run.protocol hu ?_)
    simp only [ofNat_toNat_lt size, key, element]
    have hloop := run_entries (l := lo) ihk ihe hv (by omega : _ ≤ n)
    have htimes : times (do
        record (.header .key kt k)
        let key ← readAny P old n .key kt k
        record (.header .value vt e)
        let value ← readAny P old n .value vt e
        pure (key, value)) kvs.length = times (do
        record (.header .key k.ftype k)
        let key ← readAny P old n .key k.ftype k
        record (.header .value e.ftype e)
        let value ← readAny P old n .value e.ftype e
        pure (key, value)) kvs.length := by
      -- The types in the header of an empty map need not be those written.
      cases kvs with
      | nil => rfl
      | cons kv kvs =>
        have hsize : UInt32.ofNat (kv :: kvs).length ≠ 0 := by
          intro h0
          have h1 := ofNat_toNat_lt size
          rw [h0] at h1
          simp at h1
        rw [(htypes hsize).1, (htypes hsize).2]
    rw [htimes]
    refine Run.seq (hloop.iff (everywhere_hash key element).symm) fun hi kvs' _ hkvs =>
      Run.protocol hend (Run.pure trivial ?_)
    obtain ⟨hsize, hagrees, hapart, hwin⟩ := hkvs
    have hdistinct : kvs'.Pairwise fun a b => sameKey old.isUnion a.1 b.1 = false := by
      refine pairwise_distinct hext Prod.fst Prod.fst hsize (fun p hp => (hagrees p hp).1)
        (hapart.imp fun hab o ho ho' => ?_) distinct
      exact hab o (List.mem_append_left _ ho) (List.mem_append_left _ ho')
    rw [hashNew_of_pairwise _ hdistinct]
    refine ⟨.map fi k e kvs kvs' key element hsize (fun p hp => (hagrees p hp).1)
      (fun p hp => (hagrees p hp).2), fun o ho => ?_⟩
    rw [visibleOids, entryOids_eq] at ho
    obtain ⟨b, hb, ho⟩ := List.mem_flatMap.mp ho
    exact hwin b hb o ho

theorem readsBack_obj (hext : Extends old new ρ) (hskip : Skips P old new ρ) {fi : FieldInfo}
    (hg : fi.Generated old.Cached) (ht : fi.ftype = .STRUCT) {oid : ℕ} {eigen : Bool}
    {ivars : List (ID × Value)} (ih : Held (ReadBack P old new ρ) ivars)
    (hc : Conforms new (renameInfo ρ fi) (.obj oid (ρ fi.klass) eigen ivars))
    (ho : Ordinary new (renameInfo ρ fi) (.obj oid (ρ fi.klass) eigen ivars)) :
    ReadsBack P old new ρ fi (.obj oid (ρ fi.klass) eigen ivars) := by
  obtain ⟨fs, hwire, hrun⟩ := run_object hext hskip hg ht ih hc ho
  intro site n lo s t h hn
  rw [hwire, WireValue.tokens_struct] at h hn
  obtain ⟨u, hu, h⟩ := h
  rw [TReader.consumes_append] at h
  obtain ⟨v, hv, w, hend, rfl⟩ := h
  simp only [List.length_cons, List.length_append, List.length_nil] at hn
  cases n with
  | zero => omega
  | succ n =>
    rw [ht]
    unfold readAny
    refine Run.record (Run.protocol hu ?_)
    have hbody := hrun n lo u v hv (by omega)
    dsimp only
    split_ifs at hbody ⊢
    · exact Run.seq hbody fun hi y _ hy => Run.protocol hend (Run.pure trivial hy)
    · exact Run.seq hbody fun hi y _ hy => Run.protocol hend (Run.pure trivial hy)

/-- Whatever the writer of `new` made of a value, the reader of `old` gives it back. -/
theorem readsBack (hP : P.SharedList) (hext : Extends old new ρ) (hskip : Skips P old new ρ)
    (v : Value) : ∀ fi : FieldInfo, fi.Generated old.Cached → Conforms new (renameInfo ρ fi) v →
      Ordinary new (renameInfo ρ fi) v → ReadsBack P old new ρ fi v := by
  induction v using Value.induct with
  | nil | sym | klass | foreign => intro fi _ hc; cases hc
  | int n =>
    intro fi _ hc _
    cases hc with
    | int _ _ range => exact readsBack_int (by rwa [renameInfo_ftype] at range)
  | bool b =>
    intro fi _ hc _
    cases hc with
    | bool _ _ type =>
      rw [renameInfo_ftype] at type
      exact readsBack_scalar (.bool b) P.readBool .bool b rfl (fun _ _ h => h)
        (fun n site => by rw [type]; rfl) (.bool fi b) rfl
        fun _ _ hr => by cases hr
  | float bits =>
    intro fi _ hc _
    cases hc with
    | double _ _ type =>
      rw [renameInfo_ftype] at type
      exact readsBack_scalar (.double bits) P.readDouble .float bits rfl (fun _ _ h => h)
        (fun n site => by rw [type]; rfl) (.double fi bits) rfl
        fun _ _ hr => by cases hr
  | str enc bytes =>
    intro fi _ hc ho
    cases hc with
    | string _ _ _ type =>
      rw [renameInfo_ftype] at type
      cases ho with
      | string => simpa only [renameInfo_isBinaryString] using readsBack_str type bytes
  | ary xs ih =>
    intro fi hg hc ho
    cases hc with
    | list _ _ _ type element elems =>
      rw [renameInfo_ftype] at type
      obtain ⟨e, he⟩ := exists_element hg (.inl type)
      obtain rfl := elem_eq he element
      cases ho with
      | list _ _ _ element' size ord =>
        obtain rfl := elem_eq he element'
        exact readsBack_ary type he size fun x hx =>
          ih x hx e (generated_element hg he) (elems x hx) (ord x hx)
  | set xs ih =>
    intro fi hg hc ho
    cases hc with
    | set _ _ _ type element elems =>
      rw [renameInfo_ftype] at type
      obtain ⟨e, he⟩ := exists_element hg (.inr (.inl type))
      obtain rfl := elem_eq he element
      cases ho with
      | set _ _ _ element' size distinct ord =>
        obtain rfl := elem_eq he element'
        exact readsBack_set hP hext type he size distinct fun x hx =>
          ih x hx e (generated_element hg he) (elems x hx) (ord x hx)
  | hash kvs ih =>
    intro fi hg hc ho
    cases hc with
    | map _ _ _ _ type key element keys values =>
      rw [renameInfo_ftype] at type
      obtain ⟨k, hk⟩ := exists_key hg type
      obtain ⟨e, he⟩ := exists_element hg (.inr (.inr type))
      obtain rfl := elem_eq he element
      obtain rfl := key_eq hk key
      cases ho with
      | map _ _ _ _ key' element' size distinct keys' values' =>
        obtain rfl := elem_eq he element'
        obtain rfl := key_eq hk key'
        exact readsBack_hash hext type hk he size distinct
          (fun kv hkv => (ih kv hkv).1 k (generated_key hg hk) (keys kv hkv) (keys' kv hkv))
          fun kv hkv => (ih kv hkv).2 e (generated_element hg he) (values kv hkv) (values' kv hkv)
  | obj oid klass eigen ivars ih =>
    intro fi hg hc ho
    obtain ⟨rfl, ht⟩ : klass = ρ fi.klass ∧ fi.ftype = .STRUCT := by
      rw [← renameInfo_klass ρ fi, ← renameInfo_ftype ρ fi]
      cases hc with
      | struct _ _ _ _ _ type => exact ⟨rfl, type⟩
    exact readsBack_obj hext hskip hg ht (held_of_entries ih) hc ho

theorem deserialize_encode (P : TProtocol σ) (hP : P.Inverse) (hext : Extends old new ρ)
    (hskip : Skips P old new ρ) {klass : VALUE} (hk : old.Cached klass) {oid : ℕ} {eigen : Bool}
    {ivars : List (ID × Value)}
    (hc : Conforms new (classInfo (ρ klass)) (.obj oid (ρ klass) eigen ivars))
    (ho : Ordinary new (classInfo (ρ klass)) (.obj oid (ρ klass) eigen ivars)) :
    ∃ N, ∀ n, N ≤ n → match deserialize P old n klass (P.encode (wireOf new
        (classInfo (ρ klass)) (.obj oid (ρ klass) eigen ivars)).tokens) with
      | .ok y _ => AllMade old (classInfo klass) (.obj oid (ρ klass) eigen ivars) ∧
        Agrees old (madeIvar old) ρ (classInfo klass) (.obj oid (ρ klass) eigen ivars) y
      | .error _ _ => ¬ AllMade old (classInfo klass) (.obj oid (ρ klass) eigen ivars) := by
  have hg : (classInfo klass).Generated old.Cached := generated_classInfo old hk
  obtain ⟨fields, hf⟩ := Option.isSome_iff_exists.mp hk
  obtain ⟨fields', hf', -⟩ := hext.table klass fields hf
  have hg' : (classInfo (ρ klass)).Generated new.Cached :=
    generated_classInfo new (by simp [Schema.Cached, hf'])
  have hinner : Held (ReadBack P old new ρ) ivars := fun name _ =>
    readsBack hP.toSharedList hext hskip _
  obtain ⟨fs, hwire, hrun⟩ := run_object hext hskip hg rfl hinner hc ho
  have hwire' : wireOf new (classInfo (ρ klass)) (.obj oid (ρ klass) eigen ivars) = .struct fs :=
    hwire
  have hwf := wireOf_wellFormed hg' hc ho
  rw [hwire'] at hwf ⊢
  obtain ⟨t, ht⟩ := hP.decode_encode _ hwf rfl
  rw [WireValue.tokens_struct] at ht ⊢
  obtain ⟨u, hu, ht⟩ := ht
  rw [TReader.consumes_append] at ht
  obtain ⟨v, hv, w, hend, rfl⟩ := ht
  refine ⟨(WireValue.bodyTokens fs).length + 1, fun n hn => ?_⟩
  have hbody := hrun n 0 u v hv (by omega)
  have hall : Run (AllMade old (classInfo klass) (.obj oid (ρ klass) eigen ivars)) 0
      (P.openBuffer (P.encode (.structBegin :: (WireValue.bodyTokens fs ++ [.structEnd])))) w
      (if old.isUnion klass then serializerReadUnion P old n klass
        else serializerReadStruct P old n klass) fun _ y =>
      Agrees old (madeIvar old) ρ (classInfo klass) (.obj oid (ρ klass) eigen ivars) y := by
    change Run _ 0 u v (if old.isUnion klass then readUnion P old n klass
      else readStruct P old n klass) _ at hbody
    split_ifs at hbody ⊢
    · exact Run.protocol hu (Run.seq hbody fun hi y _ hy => Run.protocol hend
        (Run.pure trivial hy.1))
    · exact Run.protocol hu (Run.seq hbody fun hi y _ hy => Run.protocol hend
        (Run.pure trivial hy.1))
  have hspec := hall { input := P.openBuffer (P.encode (.structBegin ::
    (WireValue.bodyTokens fs ++ [.structEnd]))) } rfl rfl
  unfold Spec at hspec
  unfold deserialize
  revert hspec
  generalize (if old.isUnion klass then serializerReadUnion P old n klass
    else serializerReadStruct P old n klass) _ = outcome
  intro hspec
  cases outcome with
  | ok y st => exact ⟨hspec.1, hspec.2.2.2⟩
  | error e st => exact hspec.1

theorem deserialize_encode_iff (P : TProtocol σ) (hP : P.Inverse) (hext : Extends old new ρ)
    (hskip : Skips P old new ρ) {klass : VALUE} (hk : old.Cached klass) {oid : ℕ} {eigen : Bool}
    {ivars : List (ID × Value)}
    (hc : Conforms new (classInfo (ρ klass)) (.obj oid (ρ klass) eigen ivars))
    (ho : Ordinary new (classInfo (ρ klass)) (.obj oid (ρ klass) eigen ivars)) :
    (∃ N, ∀ n, N ≤ n → ∃ y st, deserialize P old n klass (P.encode (wireOf new
        (classInfo (ρ klass)) (.obj oid (ρ klass) eigen ivars)).tokens) = .ok y st ∧
      Agrees old (newIvar old) ρ (classInfo klass) (.obj oid (ρ klass) eigen ivars) y) ↔
      Rebuilds old (classInfo klass) (.obj oid (ρ klass) eigen ivars) := by
  obtain ⟨N, hN⟩ := deserialize_encode P hP hext hskip hk hc ho
  rw [rebuilds_iff]
  constructor
  · rintro ⟨N', hN'⟩
    obtain ⟨y, st, hy, hagrees⟩ := hN' (max N N') (le_max_right N N')
    have hread := hN (max N N') (le_max_left N N')
    rw [hy] at hread
    exact ⟨hread.1, (agrees_new_iff hread.2).mp hagrees⟩
  · rintro ⟨hmade, hkeeps⟩
    refine ⟨N, fun n hn => ?_⟩
    have hread := hN n hn
    revert hread
    cases deserialize P old n klass _ with
    | ok y st => exact fun hread => ⟨y, st, rfl, (agrees_new_iff hread.2).mpr hkeeps⟩
    | error e st => exact fun hread => absurd hmade hread

end Reader

section Theorems
variable {σ : Type} (P : TProtocol σ)

theorem skips_refl (sch : Schema) : Skips P sch sch id := by
  intro k fields fields' hf hf' e he hnone
  obtain rfl : fields = fields' := Option.some.inj (hf.symm.trans hf')
  rw [(fields.find?_eq_some_iff e.1 e.2).mpr he] at hnone
  cases hnone

/-- An object that serialize accepts is read back from its bytes. -/
theorem deserialize_serialize (sch : Schema) (hnames : Unshadowed sch) (hP : P.Inverse) (oid : ℕ)
    (klass : VALUE) (eigen : Bool) (ivars : List (ID × Value)) (hk : sch.Cached klass)
    (ho : Ordinary sch (classInfo klass) (.obj oid klass eigen ivars)) (bytes : List UInt8)
    (h : serialize P sch (.obj oid klass eigen ivars) = .ok bytes) :
    ∃ N, ∀ n, N ≤ n → ∃ y st, deserialize P sch n klass bytes = .ok y st ∧
      Agrees sch (newIvar sch) id (classInfo klass) (.obj oid klass eigen ivars) y := by
  obtain ⟨hc, rfl⟩ := serialize_encode P hk h
  exact (deserialize_encode_iff P hP (Extends.refl sch) (skips_refl P sch) hk hc ho).mpr
    (rebuilds_of_unshadowed hnames _)

/-- An ordinary object of the larger schema, whose Sets and Hashes the smaller one fills with
    objects that Ruby finds again. -/
structure OrdinaryFor (old new : Schema) (ρ : VALUE → VALUE) (klass : VALUE) (y : Value) :
    Prop where
  ordinary : Ordinary new (classInfo (ρ klass)) y
  keys : PlainlyKeyed old (classInfo klass) y

end Theorems

open BinaryProtocol Loading

theorem extends_of_classes {old new : Program} {ρ : VALUE → VALUE}
    (h : ∀ c ∈ old.globals.klassCache, new.schema.isUnion (ρ c.1) = old.schema.isUnion c.1 ∧
      ∃ fields' ∈ new.schema.fieldInfoMap (ρ c.1),
        (∀ e ∈ c.2.entries, (e.1, renameInfo ρ e.2) ∈ fields'.entries) ∧
        (old.schema.isUnion c.1 = true → ∀ e' ∈ fields'.entries,
          ∃ e ∈ c.2.entries, e' = (e.1, renameInfo ρ e.2))) :
    Extends old.schema new.schema ρ where
  isUnion klass hk := by
    obtain ⟨fields, hf⟩ := Option.isSome_iff_exists.mp hk
    exact (h (klass, fields) (SortedMap.mem_of_lookup hf)).1
  table klass fields hf := by
    obtain ⟨-, fields', hf', hall⟩ := h (klass, fields) (SortedMap.mem_of_lookup hf)
    exact ⟨fields', hf', hall⟩

/-- `SS` with an integer, a struct that holds a set, a map and a union. -/
def ssIvars : List (ID × Value) :=
  [("@id_i32", .int 7),
   ("@us_i", .obj 1 8 false [("@string_set", .set [.str .utf8 [97], .str .utf8 [98]])]),
   ("@mappy", .hash [(.int 9, .str .utf8 [99]), (.int 8, .str .utf8 [])]),
   ("@un_field", .obj 2 16 false [("@setfield", .sym "id_s"), ("@id_s", .str .utf8 [100])])]

theorem deserialize_serialize_ss : ∃ bytes,
    serialize binaryProtocol userProgram.schema (.obj 0 32 false ssIvars) = .ok bytes ∧
    ∃ N, ∀ n, N ≤ n → ∃ y st, deserialize binaryProtocol userProgram.schema n 32 bytes = .ok y st ∧
      Agrees userProgram.schema (newIvar userProgram.schema) id (classInfo 32)
        (.obj 0 32 false ssIvars) y := by
  have hok : (serialize binaryProtocol userProgram.schema
      (.obj 0 32 false ssIvars)).toBool = true := by decide +kernel
  have ho : isOrdinary userProgram.schema (classInfo 32) (.obj 0 32 false ssIvars) = true := by
    decide +kernel
  cases h : serialize binaryProtocol userProgram.schema (.obj 0 32 false ssIvars) with
  | error e =>
    rw [h] at hok
    cases hok
  | ok bytes =>
    exact ⟨bytes, rfl, deserialize_serialize binaryProtocol userProgram.schema
      (unshadowed_of_defs userProgram (by decide +kernel)) binaryProtocol_inverse 0 32 false
      ssIvars (by decide +kernel) (ordinary_of_isOrdinary _ _ ho)
      bytes h⟩

/-- `NotSS_plus` is `NotSS` with a further field. -/
def notSSPlus (klass : VALUE) : VALUE := if klass = 40 then 48 else klass

def notSSPlusIvars : List (ID × Value) :=
  [("@id_s", .str .utf8 [97]), ("@id_s2", .str .utf8 [98]), ("@id_i32", .int 100)]

/-- `struct K { 1: optional i32 initialize, 2: optional i32 b = 3 }` and the same with a further
    `3: optional i32 c`. -/
def shadowedClasses (added : List (Value × Value)) : ClassDefs :=
  [(8, ⟨"K", .struct,
      (.int 1, fieldDef .I32 "initialize" [optional]) ::
      (.int 2, fieldDef .I32 "b" [(.sym "default", .int 3), optional]) :: added⟩)]

def shadowedProgram : Program where
  defs := shadowedClasses []
  globals := (loadClasses (shadowedClasses [])).get (by decide +kernel)
  loads := (Option.some_get _).symm
  loaded := by decide +kernel

def grownProgram : Program where
  defs := shadowedClasses [(.int 3, fieldDef .I32 "c" [optional])]
  globals := (loadClasses (shadowedClasses [(.int 3, fieldDef .I32 "c" [optional])])).get
    (by decide +kernel)
  loads := (Option.some_get _).symm
  loaded := by decide +kernel

theorem shadowedProgram_extends : Extends shadowedProgram.schema grownProgram.schema id :=
  extends_of_classes (by decide +kernel)

theorem shadowedProgram_ordinary : OrdinaryFor shadowedProgram.schema grownProgram.schema id 8
    (.obj 0 8 false [("@c", .int 1)]) where
  ordinary := ordinary_of_isOrdinary _ _ (by decide +kernel)
  keys k _ := class_of_defs shadowedProgram (by decide +kernel) k

end Sparsam.SerializerRoundTrip
