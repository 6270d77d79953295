import Sparsam.BinaryProtocol
import Sparsam.DecoderCalls

set_option autoImplicit false

/-!
# Framing of the decoder

`verdict` says of a value on the wire how the decoder leaves it: at its end, by
an exception, or by one of the two ways out of the frame, a union whose first
member is not declared and a struct for a definition of another type. The
constructor of a class can raise before any of its fields is read.
-/
namespace Sparsam.DecoderFraming
open WireProtocol RubyRuntime FieldInfoCache ExceptionState ObjectMethods SerializerWrite
open SerializerRead GenericSkip

inductive Verdict where
  | framed
  | raises
  | escapes
deriving DecidableEq, Repr

/-- The decoder goes on only from the end of what it read. -/
def Verdict.seq : Verdict → Verdict → Verdict
  | .framed, v => v
  | v, _ => v

@[simp] theorem Verdict.framed_seq (v : Verdict) : Verdict.framed.seq v = v := rfl

@[simp] theorem Verdict.seq_framed (v : Verdict) : v.seq .framed = v := by cases v <;> rfl

theorem Verdict.seq_eq_framed {v v' : Verdict} (h : v.seq v' = .framed) :
    v = .framed ∧ v' = .framed := by
  cases v with
  | framed => exact ⟨rfl, h⟩
  | raises | escapes => cases h

theorem Verdict.seq_eq_escapes {v v' : Verdict} (h : v.seq v' = .escapes) :
    v = .escapes ∨ v = .framed ∧ v' = .escapes := by
  cases v with
  | framed => exact .inr ⟨rfl, h⟩
  | raises => cases h
  | escapes => exact .inl rfl

def Verdict.all : List Verdict → Verdict
  | [] => .framed
  | v :: vs => v.seq (Verdict.all vs)

theorem Verdict.exists_escapes {vs : List Verdict} (h : Verdict.all vs = .escapes) :
    .escapes ∈ vs := by
  induction vs with
  | nil => cases h
  | cons v vs ih =>
    rcases Verdict.seq_eq_escapes h with rfl | ⟨-, h⟩
    · exact List.mem_cons_self ..
    · exact List.mem_cons_of_mem _ (ih h)

section Verdict
variable (sch : Schema)

def verdictNew (klass : VALUE) : Verdict := if Makes sch klass then .framed else .raises

mutual
/-- How `readAny` leaves a value read under its own type for `fi`. -/
def verdict (fi : FieldInfo) : WireValue → Verdict
  | .list et ws | .set et ws =>
    match fi.elementType with
    | none => .framed
    | some e => if et ≠ e.ftype then .framed else verdictElems e ws
  | .map _ _ kvs =>
    match fi.keyType, fi.elementType with
    | some k, some e => verdictEntries k e kvs
    | _, _ => .framed
  | .struct fs =>
    match sch.fieldInfoMap fi.klass with
    | none => .escapes
    | some fields =>
      (verdictNew sch fi.klass).seq
        (if sch.isUnion fi.klass then verdictUnion fields fs else verdictFields fields fs)
  | _ => .framed

def verdictElems (e : FieldInfo) : List WireValue → Verdict
  | [] => .framed
  | w :: ws => (verdict e w).seq (verdictElems e ws)

def verdictEntries (k e : FieldInfo) : List (WireValue × WireValue) → Verdict
  | [] => .framed
  | (x, y) :: kvs => ((verdict k x).seq (verdict e y)).seq (verdictEntries k e kvs)

/-- The loop of `readStruct`. -/
def verdictFields (fields : FieldInfoMap) : List (Int16 × WireValue) → Verdict
  | [] => .framed
  | (fid, w) :: fs =>
    match fields.find? fid with
    | none => verdictFields fields fs
    | some fi => if fi.ftype ≠ w.type then .raises else (verdict fi w).seq (verdictFields fields fs)

/-- `readUnion` stops in front of the stop byte when it does not know the member. -/
def verdictUnion (fields : FieldInfoMap) : List (Int16 × WireValue) → Verdict
  | [] => .framed
  | (fid, w) :: rest =>
    match fields.find? fid with
    | none => .escapes
    | some fi => (verdict fi w).seq (if rest.isEmpty then .framed else .raises)
end

theorem verdictElems_eq (e : FieldInfo) (ws : List WireValue) :
    verdictElems sch e ws = Verdict.all (ws.map (verdict sch e)) := by
  induction ws with
  | nil => rfl
  | cons w ws ih => simp only [verdictElems, ih, List.map_cons, Verdict.all]

theorem verdictEntries_eq (k e : FieldInfo) (kvs : List (WireValue × WireValue)) :
    verdictEntries sch k e kvs =
      Verdict.all (kvs.map fun kv => (verdict sch k kv.1).seq (verdict sch e kv.2)) := by
  induction kvs with
  | nil => rfl
  | cons kv kvs ih =>
    obtain ⟨x, y⟩ := kv
    simp only [verdictEntries, ih, List.map_cons, Verdict.all]

variable {sch}

theorem makes_of_verdict {fi : FieldInfo} {w : WireValue} (hv : verdict sch fi w ≠ .raises)
    (ht : w.type = .STRUCT) (hc : sch.Cached fi.klass) : Makes sch fi.klass := by
  obtain ⟨fields, hf⟩ := Option.isSome_iff_exists.mp hc
  cases w with
  | struct fs =>
    by_contra hmakes
    refine hv ?_
    rw [verdict, hf]
    dsimp only
    rw [verdictNew, if_neg hmakes]
    rfl
  | _ => cases ht

theorem escapes_made {klass : VALUE} {v : Verdict}
    (h : (verdictNew sch klass).seq v = .escapes) : Makes sch klass ∧ v = .escapes := by
  unfold verdictNew at h
  split at h
  · rename_i hmakes
    exact ⟨hmakes, h⟩
  · cases h

end Verdict

section Outcome
variable {σ α β : Type}

/-- From the input `s` the outcome of `x` is as `v` says, at `t` where it returns. -/
def Outcome (v : Verdict) (s t : σ) (x : Reader σ α) : Prop :=
  ∀ st : RState σ, st.input = s →
    match v with
    | .framed => Spec x st (fun _ u => u.input = t) (fun _ _ => False)
    | .raises => Spec x st (fun _ _ => False) (fun e _ => e.isRaise = true)
    | .escapes => True

theorem Outcome.pure (s : σ) (a : α) : Outcome .framed s s (Pure.pure a : Reader σ α) :=
  fun _ hs => Spec.pure hs

theorem Outcome.throw {e : Err} (h : e.isRaise = true) (s t : σ) :
    Outcome .raises s t (MonadExcept.throw e : Reader σ α) := fun _ _ => Spec.throw h

theorem Outcome.bind {v v' : Verdict} {s t u : σ} {x : Reader σ α} {f : α → Reader σ β}
    (hx : Outcome v s t x) (hf : ∀ a, Outcome v' t u (f a)) :
    Outcome (v.seq v') s u (x >>= f) := by
  intro st hs
  have h := hx st hs
  cases v with
  | framed =>
    cases v' with
    | framed => exact h.seq fun a w hw => hf a w hw
    | raises =>
      refine Spec.bind (h.mono (fun a w hw => hf a w hw) fun _ _ hE => hE.elim)
    | escapes => trivial
  | raises => exact Spec.bind (h.mono (fun _ _ hQ => hQ.elim) fun _ _ hE => hE)
  | escapes => trivial

theorem Outcome.then {v : Verdict} {s t u : σ} {x : Reader σ α} {f : α → Reader σ β}
    (hx : Outcome .framed s t x) (hf : ∀ a, Outcome v t u (f a)) : Outcome v s u (x >>= f) :=
  hx.bind hf

theorem Outcome.finish {v : Verdict} {s t u : σ} {x : Reader σ α} {f : α → Reader σ β}
    (hx : Outcome v s t x) (hf : ∀ a, Outcome .framed t u (f a)) : Outcome v s u (x >>= f) := by
  have h := hx.bind hf
  rwa [Verdict.seq_framed] at h

theorem Outcome.protocol {v : Verdict} {s t u : σ} {f : σ → Except TException (α × σ)} {a : α}
    {g : α → Reader σ β} (hf : f s = .ok (a, t)) (hg : Outcome v t u (g a)) :
    Outcome v s u (SerializerRead.protocol f >>= g) := by
  intro st hs
  have hrun : SerializerRead.protocol f st = .ok a { st with input := t } := by
    simp only [SerializerRead.protocol, hs, hf]
  have h := hg { st with input := t } rfl
  have step : ∀ Q E, Spec (g a) { st with input := t } Q E →
      Spec (SerializerRead.protocol f >>= g) st Q E := by
    intro Q E hspec
    refine Spec.bind ?_
    simpa only [Spec, hrun] using hspec
  cases v with
  | framed => exact step _ _ h
  | raises => exact step _ _ h
  | escapes => trivial

theorem outcome_protocol {s t : σ} {f : σ → Except TException (α × σ)} {a : α}
    (hf : f s = .ok (a, t)) : Outcome .framed s t (SerializerRead.protocol f) := by
  intro st hs
  simp only [Spec, SerializerRead.protocol, hs, hf]

theorem outcome_record (s : σ) (e : Event) : Outcome .framed s s (record e : Reader σ Unit) :=
  fun _ hs => hs

theorem outcome_newInstance {sch : Schema} {klass : VALUE} {fields : FieldInfoMap}
    (h : sch.fieldInfoMap klass = some fields) (s : σ) :
    Outcome (verdictNew sch klass) s s (newInstance sch klass : Reader σ Instance) := by
  unfold verdictNew
  split
  · rename_i hmakes
    rw [newInstance_makes sch h hmakes]
    exact (outcome_record s _).then fun _ => fun _ hs => Spec.bind (spec_newOid (Spec.pure hs))
  · rename_i hmakes
    obtain ⟨e, hraise, hnew⟩ := newInstance_raises (σ := σ) sch h hmakes
    rw [hnew]
    exact (outcome_record s _).then fun _ => fun _ _ => Spec.bind (spec_newOid (Spec.throw hraise))

theorem outcome_made {sch : Schema} {klass : VALUE} {fields : FieldInfoMap}
    (h : sch.fieldInfoMap klass = some fields) (hmakes : Makes sch klass) (s : σ) :
    Outcome .framed s s (newInstance sch klass : Reader σ Instance) := by
  have hnew := outcome_newInstance (σ := σ) h s
  rwa [verdictNew, if_pos hmakes] at hnew

theorem outcome_findFieldInfoMap {sch : Schema} {klass : VALUE} {fields : FieldInfoMap}
    (h : sch.fieldInfoMap klass = some fields) {v : Verdict} {s t : σ}
    {g : FieldInfoMap → Reader σ β} (hg : Outcome v s t (g fields)) :
    Outcome v s t (findFieldInfoMap sch klass >>= g) := by
  unfold findFieldInfoMap
  rw [h]
  exact hg

variable {P : TReader σ}

theorem outcome_times {x : Reader σ α} (toks : β → List Token) (v : β → Verdict) (items : List β)
    (step : ∀ b ∈ items, ∀ s t, P.Consumes s (toks b) t → Outcome (v b) s t x) {s t : σ}
    (h : P.Consumes s (items.flatMap toks) t) :
    Outcome (Verdict.all (items.map v)) s t (times x items.length) := by
  induction items generalizing s with
  | nil =>
    obtain rfl : s = t := h
    exact Outcome.pure s []
  | cons b items ih =>
    rw [List.flatMap_cons, TReader.consumes_append] at h
    obtain ⟨u, hu, ht⟩ := h
    refine (step b (by simp) s u hu).bind fun a => ?_
    have hrest := ih (fun c hc => step c (List.mem_cons_of_mem _ hc)) ht
    exact hrest.finish fun as => Outcome.pure t (a :: as)

end Outcome

section Readers
variable {σ : Type} {P : TProtocol σ} {sch : Schema}

theorem outcome_skipNType (hP : P.Framed) {et : TType} {ws : List WireValue}
    (types : ∀ w ∈ ws, w.type = et) (elems : ∀ w ∈ ws, w.WellFormed) {s t : σ}
    (h : P.Consumes s (ws.flatMap WireValue.tokens) t) :
    Outcome .framed s t (skipNType P ws.length et) := by
  have hloop := outcome_times (x := protocol (P.skip et)) WireValue.tokens (fun _ => .framed) ws
    (fun w hw s t hc => by
      have hskip := hP.skip w s t (elems w hw) hc
      rw [types w hw] at hskip
      exact outcome_protocol hskip) h
  have hall : Verdict.all (ws.map fun _ => .framed) = .framed := by
    clear hloop h types elems
    induction ws with
    | nil => rfl
    | cons w ws ih => simpa [Verdict.all] using ih
  rw [hall] at hloop
  exact hloop.then fun _ => Outcome.pure t ()

theorem outcome_skipNPair (hP : P.Framed) {kt vt : TType} {kvs : List (WireValue × WireValue)}
    (types : ∀ e ∈ kvs, e.1.type = kt ∧ e.2.type = vt) (keys : ∀ e ∈ kvs, e.1.WellFormed)
    (values : ∀ e ∈ kvs, e.2.WellFormed) {s t : σ}
    (h : P.Consumes s (kvs.flatMap fun e => e.1.tokens ++ e.2.tokens) t) :
    Outcome .framed s t (skipNPair P kvs.length kt vt) := by
  have hloop := outcome_times (x := do protocol (P.skip kt); protocol (P.skip vt)) _
    (fun _ => .framed) kvs (fun e he s t hc => by
      rw [TReader.consumes_append] at hc
      obtain ⟨u, hu, ht⟩ := hc
      have hk := hP.skip e.1 s u (keys e he) hu
      have hv := hP.skip e.2 u t (values e he) ht
      rw [(types e he).1] at hk
      rw [(types e he).2] at hv
      exact Outcome.protocol hk (outcome_protocol hv)) h
  have hall : Verdict.all (kvs.map fun _ => .framed) = .framed := by
    clear hloop h types keys values
    induction kvs with
    | nil => rfl
    | cons w ws ih => simpa [Verdict.all] using ih
  rw [hall] at hloop
  exact hloop.then fun _ => Outcome.pure t ()

variable (P sch)

/-- What the decoder owes a value: with a unit of fuel for each token it ends as
    the verdict says. -/
def Frames (w : WireValue) : Prop :=
  ∀ (site : Site) (fi : FieldInfo) (n : ℕ) (s t : σ), P.Consumes s w.tokens t →
    w.tokens.length ≤ n → Outcome (verdict sch fi w) s t (readAny P sch n site w.type fi)

variable {P sch}

theorem outcome_readFields (hP : P.Framed) (klass : VALUE) (fields : FieldInfoMap)
    (fs : List (Int16 × WireValue)) (wf : ∀ f ∈ fs, f.2.WellFormed)
    (ih : ∀ f ∈ fs, Frames P sch f.2) (ret : Instance) {n : ℕ} {s t : σ}
    (h : P.Consumes s (WireValue.bodyTokens fs) t) (hn : (WireValue.bodyTokens fs).length ≤ n) :
    Outcome (verdictFields sch fields fs) s t (readFields P sch n klass fields ret) := by
  induction fs generalizing s n ret with
  | nil =>
    obtain ⟨u, ⟨fid, hu⟩, rfl⟩ := h
    cases n with
    | zero => simp [WireValue.bodyTokens] at hn
    | succ n =>
      rw [readFields]
      exact Outcome.protocol hu (Outcome.pure _ _)
  | cons f fs ihfs =>
    obtain ⟨fid, w⟩ := f
    rw [WireValue.bodyTokens_cons] at h hn
    obtain ⟨u, hu, h⟩ := h
    rw [TReader.consumes_append] at h
    obtain ⟨v, hv, v', hend, h⟩ := h
    simp only [List.length_cons, List.length_append] at hn
    cases n with
    | zero => omega
    | succ n =>
      have hwn : w.tokens.length ≤ n := by omega
      rw [readFields]
      refine Outcome.protocol hu ?_
      simp only [WireValue.type_ne_stop, ↓reduceIte, verdictFields]
      have hrest : ∀ ret, Outcome (verdictFields sch fields fs) v' t
          (readFields P sch n klass fields ret) := fun ret =>
        ihfs (fun g hg => wf g (List.mem_cons_of_mem _ hg))
          (fun g hg => ih g (List.mem_cons_of_mem _ hg)) ret h (by omega)
      cases fields.find? fid with
      | none =>
        have hskip := hP.skip w u v (wf (fid, w) (by simp)) hv
        exact Outcome.protocol hskip (Outcome.protocol hend (hrest ret))
      | some fi =>
        dsimp only
        split_ifs with hne
        · exact Outcome.throw rfl u t
        · exact (ih (fid, w) (by simp) .field fi n u v hv hwn).bind fun a =>
            Outcome.protocol hend (hrest _)

theorem outcome_readStruct (hP : P.Framed) {klass : VALUE} {fields : FieldInfoMap}
    (hf : sch.fieldInfoMap klass = some fields) (fs : List (Int16 × WireValue))
    (wf : ∀ f ∈ fs, f.2.WellFormed) (ih : ∀ f ∈ fs, Frames P sch f.2) {n : ℕ} {s t : σ}
    (h : P.Consumes s (WireValue.bodyTokens fs) t) (hn : (WireValue.bodyTokens fs).length < n) :
    Outcome ((verdictNew sch klass).seq (verdictFields sch fields fs)) s t
      (readStruct P sch n klass) := by
  cases n with
  | zero => omega
  | succ n =>
    rw [readStruct]
    refine (outcome_newInstance hf s).bind fun ret => outcome_findFieldInfoMap hf ?_
    exact outcome_readFields hP klass fields fs wf ih ret h (by omega)

theorem outcome_readUnion {klass : VALUE} {fields : FieldInfoMap}
    (hf : sch.fieldInfoMap klass = some fields) (fs : List (Int16 × WireValue))
    (ih : ∀ f ∈ fs, Frames P sch f.2) {n : ℕ} {s t : σ}
    (h : P.Consumes s (WireValue.bodyTokens fs) t) (hn : (WireValue.bodyTokens fs).length < n) :
    Outcome ((verdictNew sch klass).seq (verdictUnion sch fields fs)) s t
      (readUnion P sch n klass) := by
  cases n with
  | zero => omega
  | succ n =>
    rw [readUnion]
    refine (outcome_newInstance hf s).bind fun ret => outcome_findFieldInfoMap hf ?_
    cases fs with
    | nil =>
      obtain ⟨u, ⟨fid, hu⟩, rfl⟩ := h
      exact Outcome.protocol hu (Outcome.pure _ _)
    | cons f rest =>
      obtain ⟨fid, w⟩ := f
      rw [WireValue.bodyTokens_cons] at h hn
      obtain ⟨u, hu, h⟩ := h
      rw [TReader.consumes_append] at h
      obtain ⟨v, hv, v', hend, h⟩ := h
      simp only [List.length_cons, List.length_append] at hn
      refine Outcome.protocol hu ?_
      simp only [WireValue.type_ne_stop, ↓reduceIte, verdictUnion]
      cases fields.find? fid with
      | none => exact fun _ _ => trivial
      | some fi =>
        have hwn : w.tokens.length ≤ n := by omega
        refine (outcome_record u _).then fun _ => ?_
        refine (ih (fid, w) (by simp) .member fi n u v hv hwn).bind fun a => ?_
        refine Outcome.protocol hend ?_
        -- A second field is a raise, the stop byte the end of the union.
        cases rest with
        | nil =>
          obtain ⟨z, ⟨fid', hz⟩, rfl⟩ := h
          exact Outcome.protocol hz (Outcome.pure _ _)
        | cons g rest =>
          obtain ⟨fid', w'⟩ := g
          rw [WireValue.bodyTokens_cons] at h
          obtain ⟨z, hz, h⟩ := h
          refine Outcome.protocol hz ?_
          simp only [WireValue.type_ne_stop, ne_eq, not_false_eq_true, ↓reduceIte]
          exact Outcome.throw rfl z t

theorem frames_scalar {α : Type} {w : WireValue} {tok : Token} {f : σ → Except TException (α × σ)}
    {g : FieldInfo → α → Value} {a : α} (htok : w.tokens = [tok])
    (hread : ∀ s t, P.Reads tok s t → f s = .ok (a, t))
    (hv : ∀ fi, verdict sch fi w = .framed)
    (hany : ∀ n site fi, readAny P sch (n + 1) site w.type fi = do
      record (.call w.type fi)
      pure (g fi (← protocol f))) : Frames P sch w := by
  intro site fi n s t h hn
  rw [htok] at h hn
  obtain ⟨u, hu, rfl⟩ := h
  cases n with
  | zero => simp at hn
  | succ n =>
    rw [hany, hv]
    exact (outcome_record s _).then fun _ => Outcome.protocol (hread s u hu) (Outcome.pure u _)

theorem readAny_string (hP : P.Framed) (n : ℕ) (site : Site) (fi : FieldInfo) :
    readAny P sch (n + 1) site .STRING fi = (do
      record (.call .STRING fi)
      pure (Value.str (if fi.isBinaryString then .binary else .utf8)
        (← protocol P.readString))) := by
  have hbin : P.readBinary = P.readString := funext hP.binary
  unfold readAny
  cases fi.isBinaryString <;> simp [hbin]

theorem outcome_elements (hP : P.Framed) {fi : FieldInfo} {site : Site} {et : TType}
    {ws : List WireValue} (types : ∀ w ∈ ws, w.type = et) (elems : ∀ w ∈ ws, w.WellFormed)
    (ih : ∀ w ∈ ws, Frames P sch w) {n : ℕ} (hn : (ws.flatMap WireValue.tokens).length ≤ n)
    {s t : σ} (h : P.Consumes s (ws.flatMap WireValue.tokens) t)
    {f : List Value → Reader σ Value} (hf : ∀ vs, Outcome .framed t t (f vs)) :
    Outcome (match fi.elementType with
        | none => .framed
        | some e => if et ≠ e.ftype then .framed else verdictElems sch e ws) s t
      (match fi.elementType with
      | none => do
        record (.skip site et fi)
        skipNType P ws.length et
        pure .nil
      | some e =>
        if et ≠ e.ftype then do
          record (.skip site et fi)
          skipNType P ws.length et
          pure .nil
        else do
          let vs ← times (readAny P sch n .element et e) ws.length
          f vs) := by
  have hskip := outcome_skipNType hP types elems h
  cases fi.elementType with
  | none => exact (outcome_record s _).then fun _ => hskip.then fun _ => Outcome.pure t Value.nil
  | some e =>
    dsimp only
    split_ifs with hne
    · exact (outcome_record s _).then fun _ => hskip.then fun _ => Outcome.pure t Value.nil
    · have hloop := outcome_times (x := readAny P sch n .element et e) WireValue.tokens
        (verdict sch e) ws (fun w hw s t hc => by
          have hlen := length_le_flatMap WireValue.tokens hw
          have hw' := ih w hw .element e n s t hc (by omega)
          rwa [types w hw] at hw') h
      rw [verdictElems_eq]
      exact hloop.finish hf

theorem frames_list (hP : P.Framed) {et : TType} {ws : List WireValue}
    (hw : (WireValue.list et ws).WellFormed) (ih : ∀ w ∈ ws, w.WellFormed → Frames P sch w) :
    Frames P sch (.list et ws) := by
  cases hw with
  | list _ _ size wire types elems =>
    intro site fi n s t h hn
    rw [WireValue.tokens, WireValue.elemTokens_eq] at h hn
    obtain ⟨u, hu, h⟩ := h
    rw [TReader.consumes_append] at h
    obtain ⟨v, hv, v', hend, rfl⟩ := h
    obtain rfl : v = v' := by simpa [TReader.Reads, hP.listEnd] using hend
    simp only [List.length_cons, List.length_append] at hn
    cases n with
    | zero => omega
    | succ n =>
      unfold readAny
      refine (outcome_record s _).then fun _ => Outcome.protocol hu ?_
      simp only [ofNat_toNat_lt size, verdict]
      refine outcome_elements hP types elems (fun w hw => ih w hw (elems w hw)) (by omega) hv ?_
      exact fun vs => Outcome.protocol (hP.listEnd v) (Outcome.pure v _)

theorem frames_set (hP : P.Framed) {et : TType} {ws : List WireValue}
    (hw : (WireValue.set et ws).WellFormed) (ih : ∀ w ∈ ws, w.WellFormed → Frames P sch w) :
    Frames P sch (.set et ws) := by
  cases hw with
  | set _ _ size wire types elems =>
    intro site fi n s t h hn
    rw [WireValue.tokens, WireValue.elemTokens_eq] at h hn
    obtain ⟨u, hu, h⟩ := h
    rw [TReader.consumes_append] at h
    obtain ⟨v, hv, v', hend, rfl⟩ := h
    obtain rfl : v = v' := by simpa [TReader.Reads, hP.listEnd] using hend
    simp only [List.length_cons, List.length_append] at hn
    cases n with
    | zero => omega
    | succ n =>
      unfold readAny
      refine (outcome_record s _).then fun _ => Outcome.protocol ((hP.setBegin s).trans hu) ?_
      simp only [ofNat_toNat_lt size, verdict]
      refine outcome_elements hP types elems (fun w hw => ih w hw (elems w hw)) (by omega) hv ?_
      exact fun vs => Outcome.protocol ((hP.setEnd v).trans (hP.listEnd v)) (Outcome.pure v _)

theorem outcome_entries (k e : FieldInfo) {kt vt : TType} {kvs : List (WireValue × WireValue)}
    (types : ∀ kv ∈ kvs, kv.1.type = kt ∧ kv.2.type = vt)
    (ih : ∀ kv ∈ kvs, Frames P sch kv.1 ∧ Frames P sch kv.2) {n : ℕ}
    (hn : (kvs.flatMap fun kv => kv.1.tokens ++ kv.2.tokens).length ≤ n) {s t : σ}
    (h : P.Consumes s (kvs.flatMap fun kv => kv.1.tokens ++ kv.2.tokens) t) :
    Outcome (verdictEntries sch k e kvs) s t (times (do
      record (.header .key kt k)
      let key ← readAny P sch n .key kt k
      record (.header .value vt e)
      let value ← readAny P sch n .value vt e
      pure (key, value)) kvs.length) := by
  rw [verdictEntries_eq]
  refine outcome_times (β := WireValue × WireValue) _
    (fun kv => (verdict sch k kv.1).seq (verdict sch e kv.2)) kvs (fun kv hkv s t hc => ?_) h
  rw [TReader.consumes_append] at hc
  obtain ⟨m, hx, hy⟩ := hc
  have hlen := length_le_flatMap (fun kv : WireValue × WireValue => kv.1.tokens ++ kv.2.tokens) hkv
  simp only [List.length_append] at hlen
  have hkey := (ih kv hkv).1 .key k n s m hx (by omega)
  have hval := (ih kv hkv).2 .value e n m t hy (by omega)
  rw [(types kv hkv).1] at hkey
  rw [(types kv hkv).2] at hval
  refine (outcome_record s _).then fun _ => hkey.bind fun key => ?_
  refine (outcome_record m _).then fun _ => ?_
  exact hval.finish fun value => Outcome.pure t (key, value)

theorem frames_map (hP : P.Framed) {kt vt : TType} {kvs : List (WireValue × WireValue)}
    (hw : (WireValue.map kt vt kvs).WellFormed) (ih : ∀ kv ∈ kvs,
      (kv.1.WellFormed → Frames P sch kv.1) ∧ (kv.2.WellFormed → Frames P sch kv.2)) :
    Frames P sch (.map kt vt kvs) := by
  cases hw with
  | map _ _ _ size keyWire valueWire types keys values =>
    intro site fi n s t h hn
    rw [WireValue.tokens, WireValue.entryTokens_eq] at h hn
    obtain ⟨u, ⟨kt', vt', hu, hne⟩, h⟩ := h
    rw [TReader.consumes_append] at h
    obtain ⟨v, hv, v', hend, rfl⟩ := h
    obtain rfl : v = v' := by simpa [TReader.Reads, hP.mapEnd] using hend
    simp only [List.length_cons, List.length_append] at hn
    -- The header of an empty map need not have the types.
    have types' : ∀ kv ∈ kvs, kv.1.type = kt' ∧ kv.2.type = vt' := by
      intro kv hkv
      have hsize : UInt32.ofNat kvs.length ≠ 0 := by
        intro h0
        have h1 := ofNat_toNat_lt size
        rw [h0] at h1
        simp [List.eq_nil_of_length_eq_zero h1.symm] at hkv
      rw [(hne hsize).1, (hne hsize).2]
      exact types kv hkv
    have hskip := outcome_skipNPair hP types' keys values hv
    cases n with
    | zero => omega
    | succ n =>
      unfold readAny
      refine (outcome_record s _).then fun _ => Outcome.protocol hu ?_
      simp only [ofNat_toNat_lt size, verdict]
      cases hk : fi.keyType with
      | none =>
        exact (outcome_record u _).then fun _ => hskip.then fun _ => Outcome.pure v Value.nil
      | some k =>
        cases he : fi.elementType with
        | none =>
          exact (outcome_record u _).then fun _ => hskip.then fun _ => Outcome.pure v Value.nil
        | some e =>
          have hloop := outcome_entries k e types'
            (fun kv hkv => ⟨(ih kv hkv).1 (keys kv hkv), (ih kv hkv).2 (values kv hkv)⟩)
            (by omega : _ ≤ n) hv
          exact hloop.finish fun ret => Outcome.protocol (hP.mapEnd v) (Outcome.pure v _)

theorem frames_struct (hP : P.Framed) {fs : List (Int16 × WireValue)}
    (wf : ∀ f ∈ fs, f.2.WellFormed) (ih : ∀ f ∈ fs, Frames P sch f.2) :
    Frames P sch (.struct fs) := by
  intro site fi n s t h hn
  rw [WireValue.tokens_struct] at h hn
  obtain ⟨u, hu, h⟩ := h
  rw [TReader.consumes_append] at h
  obtain ⟨v, hv, v', hend, rfl⟩ := h
  simp only [List.length_cons, List.length_append, List.length_nil] at hn
  cases n with
  | zero => omega
  | succ n =>
    unfold readAny
    refine (outcome_record s _).then fun _ => Outcome.protocol hu ?_
    simp only [verdict]
    cases hf : sch.fieldInfoMap fi.klass with
    | none => exact fun _ _ => trivial
    | some table =>
      dsimp only
      split_ifs with hun
      · exact (outcome_readUnion hf fs ih hv (by omega)).finish fun _ =>
          Outcome.protocol hend (Outcome.pure _ _)
      · exact (outcome_readStruct hP hf fs wf ih hv (by omega)).finish fun _ =>
          Outcome.protocol hend (Outcome.pure _ _)

theorem frames (hP : P.Framed) (w : WireValue) (hw : w.WellFormed) : Frames P sch w := by
  induction w using WireValue.induct with
  | bool b => exact frames_scalar rfl (fun _ _ h => h) (fun _ => rfl) fun _ _ _ => rfl
  | byte n => exact frames_scalar rfl (fun _ _ h => h) (fun _ => rfl) fun _ _ _ => rfl
  | i16 n => exact frames_scalar rfl (fun _ _ h => h) (fun _ => rfl) fun _ _ _ => rfl
  | i32 n => exact frames_scalar rfl (fun _ _ h => h) (fun _ => rfl) fun _ _ _ => rfl
  | i64 n => exact frames_scalar rfl (fun _ _ h => h) (fun _ => rfl) fun _ _ _ => rfl
  | double b => exact frames_scalar rfl (fun _ _ h => h) (fun _ => rfl) fun _ _ _ => rfl
  | string isBinary b =>
    cases isBinary with
    | true =>
      exact frames_scalar rfl (fun s _ h => (hP.binary s).symm.trans h) (fun _ => rfl)
        (readAny_string hP)
    | false =>
      exact frames_scalar rfl (fun _ _ h => h) (fun _ => rfl)
        (readAny_string hP)
  | list et ws ih => exact frames_list hP hw ih
  | set et ws ih => exact frames_set hP hw ih
  | map kt vt kvs ih => exact frames_map hP hw ih
  | struct fs ih =>
    cases hw with
    | struct _ fields => exact frames_struct hP fields fun f hf => ih f hf (fields f hf)

end Readers

/-! ## A protocol that notices

Its state is the tokens still to read, or `none` once a call did not match the
next token: from there every call answers and nothing is found again. -/

section Lossy

abbrev Tape := Option (List Token)

def expect {α : Type} (f : Token → Option α) (other : α) : Read Tape α
  | some (tok :: toks) =>
    match f tok with
    | some a => .ok (a, some toks)
    | none => .ok (other, none)
  | _ => .ok (other, none)

def lossyReads : TReader Tape where
  readStructBegin := expect (fun | .structBegin => some () | _ => none) ()
  readStructEnd := expect (fun | .structEnd => some () | _ => none) ()
  readFieldBegin := expect (fun
    | .fieldBegin ft fid => some (ft, fid)
    | .fieldStop => some (.STOP, 0)
    | _ => none) (.STOP, 0)
  readFieldEnd := expect (fun | .fieldEnd => some () | _ => none) ()
  readMapBegin := expect (fun | .mapBegin kt vt n => some (kt, vt, n) | _ => none) (.STOP, .STOP, 0)
  readMapEnd := done ()
  readListBegin := expect (fun | .listBegin et n => some (et, n) | _ => none) (.STOP, 0)
  readListEnd := done ()
  readSetBegin := expect (fun | .listBegin et n => some (et, n) | _ => none) (.STOP, 0)
  readSetEnd := done ()
  readBool := expect (fun | .bool b => some b | _ => none) false
  readByte := expect (fun | .byte n => some n | _ => none) 0
  readI16 := expect (fun | .i16 n => some n | _ => none) 0
  readI32 := expect (fun | .i32 n => some n | _ => none) 0
  readI64 := expect (fun | .i64 n => some n | _ => none) 0
  readDouble := expect (fun | .double bits => some bits | _ => none) 0
  readString := expect (fun | .string b | .binary b => some b | _ => none) []
  readBinary := expect (fun | .string b | .binary b => some b | _ => none) []

/-- The tokens on the tape: the ends of containers leave no mark. -/
def onTape (toks : List Token) : List Token :=
  toks.filter fun | .listEnd | .mapEnd => false | _ => true

noncomputable def lossyProtocol : TProtocol Tape where
  toTReader := lossyReads
  skip := idealSkip lossyReads
  openBuffer := fun _ => none
  encode := fun _ => []

theorem lossyReads_shared : lossyReads.SharedList := ⟨fun _ => rfl, fun _ => rfl⟩

theorem lossyProtocol_framed : lossyProtocol.Framed where
  toSharedList := lossyReads_shared
  skip w s t hw h := idealSkip_exact lossyReads_shared (fun _ => rfl) w s t hw h
  listEnd _ := rfl
  mapEnd _ := rfl
  binary _ := rfl

theorem onTape_append (xs ys : List Token) : onTape (xs ++ ys) = onTape xs ++ onTape ys :=
  List.filter_append ..

theorem lossy_consumes (toks r : List Token) :
    lossyProtocol.Consumes (some (onTape toks ++ r)) toks (some r) := by
  induction toks with
  | nil => rfl
  | cons tok toks ih =>
    refine ⟨some (onTape toks ++ r), ?_, ih⟩
    cases tok with
    | fieldStop => exact ⟨0, rfl⟩
    | mapBegin kt vt n => exact ⟨kt, vt, rfl, fun _ => ⟨rfl, rfl⟩⟩
    | _ => rfl

variable {α β : Type} {sch : Schema}

/-- From `s` the run returns at a tape of `R`, or crashes. -/
def Leads (R : Tape → Prop) (s : Tape) (x : Reader Tape α) : Prop :=
  ∀ st : RState Tape, st.input = s → Spec x st (fun _ u => R u.input) (fun e _ => e = .crash)

/-- From `s` the run ends off the tape, or crashes. -/
abbrev Sinks (s : Tape) (x : Reader Tape α) : Prop := Leads (· = none) s x

section Leads
variable {R : Tape → Prop} {s t : Tape}

theorem Leads.bind {R' : Tape → Prop} {x : Reader Tape α} {f : α → Reader Tape β}
    (hx : Leads R' s x) (hf : ∀ a t, R' t → Leads R t (f a)) : Leads R s (x >>= f) :=
  fun st hs => (hx st hs).seq fun a u hu => hf a u.input hu u rfl

theorem Sinks.bind {x : Reader Tape α} {f : α → Reader Tape β} (hx : Sinks s x)
    (hf : ∀ a, Leads R none (f a)) : Leads R s (x >>= f) :=
  Leads.bind hx fun a _ ht => ht ▸ hf a

theorem Leads.after {x : Reader Tape α} {f : α → Reader Tape β} (hx : Outcome .framed s t x)
    (hf : ∀ a, Leads R t (f a)) : Leads R s (x >>= f) :=
  fun st hs => Spec.bind ((hx st hs).mono (fun a u hu => hf a u hu) fun _ _ h => h.elim)

theorem Leads.protocol {f : Tape → Except TException (α × Tape)} {a : α}
    {g : α → Reader Tape β} (hf : f s = .ok (a, t)) (hg : Leads R t (g a)) :
    Leads R s (SerializerRead.protocol f >>= g) := by
  intro st hs
  have hrun : SerializerRead.protocol f st = .ok a { st with input := t } := by
    simp only [SerializerRead.protocol, hs, hf]
  refine Spec.bind ?_
  simpa only [Spec, hrun] using hg { st with input := t } rfl

theorem Leads.pure (a : α) (h : R s) : Leads R s (Pure.pure a : Reader Tape α) :=
  fun _ hs => Spec.pure (hs ▸ h)

theorem Sinks.pure (a : α) : Sinks none (Pure.pure a : Reader Tape α) := Leads.pure a rfl

theorem leads_newInstance {klass : VALUE} (hmakes : sch.Cached klass → Makes sch klass)
    {f : Instance → Reader Tape β}
    (hf : ∀ fields, sch.fieldInfoMap klass = some fields → ∀ ret, Leads R s (f ret)) :
    Leads R s (newInstance sch klass >>= f) := by
  cases hk : sch.fieldInfoMap klass with
  | none =>
    rw [newInstance_none sch hk]
    exact fun st _ => Spec.bind (Spec.throw rfl)
  | some fields =>
    have hcached : sch.Cached klass := by simp [Schema.Cached, hk]
    exact Leads.after (outcome_made hk (hmakes hcached) s) (hf fields hk)

theorem leads_findFieldInfoMap {klass : VALUE} {fields : FieldInfoMap}
    (h : sch.fieldInfoMap klass = some fields) {g : FieldInfoMap → Reader Tape β}
    (hg : Leads R s (g fields)) : Leads R s (findFieldInfoMap sch klass >>= g) := by
  unfold findFieldInfoMap
  rw [h]
  exact hg

end Leads

theorem sinks_readFields (klass : VALUE) (fields : FieldInfoMap) (ret : Instance) {n : ℕ}
    (hn : 1 ≤ n) : Sinks none (readFields lossyProtocol sch n klass fields ret) := by
  cases n with
  | zero => omega
  | succ n =>
    rw [readFields]
    exact Leads.protocol (a := (.STOP, 0)) rfl (Sinks.pure _)

theorem sinks_readStruct {klass : VALUE} (hmakes : sch.Cached klass → Makes sch klass) {n : ℕ}
    (hn : 2 ≤ n) : Sinks none (readStruct lossyProtocol sch n klass) := by
  cases n with
  | zero => omega
  | succ n =>
    rw [readStruct]
    exact leads_newInstance hmakes fun fields hf ret =>
      leads_findFieldInfoMap hf (sinks_readFields klass fields ret (by omega))

theorem sinks_readUnion {klass : VALUE} (hmakes : sch.Cached klass → Makes sch klass) {n : ℕ}
    (hn : 1 ≤ n) : Sinks none (readUnion lossyProtocol sch n klass) := by
  cases n with
  | zero => omega
  | succ n =>
    rw [readUnion]
    exact leads_newInstance hmakes fun fields hf ret =>
      leads_findFieldInfoMap hf (Leads.protocol (a := (.STOP, 0)) rfl (Sinks.pure _))

theorem sinks_readAny (w : WireValue) (site : Site) (fi : FieldInfo)
    (hmakes : w.type = .STRUCT → sch.Cached fi.klass → Makes sch fi.klass) {n : ℕ}
    (hn : w.tokens.length ≤ n) : Sinks none (readAny lossyProtocol sch n site w.type fi) := by
  have hrecord : ∀ e {f : Unit → Reader Tape Value}, Sinks none (f ()) →
      Sinks none (record e >>= f) := fun e f hf => Leads.after (outcome_record none e) fun _ => hf
  cases n with
  | zero => cases w with
    | string b => cases b <;> simp [WireValue.tokens] at hn
    | _ => simp [WireValue.tokens] at hn
  | succ n =>
    unfold readAny
    refine hrecord _ ?_
    cases w with
    | bool => exact Leads.protocol (a := false) rfl (Sinks.pure _)
    | byte => exact Leads.protocol (a := (0 : Int8)) rfl (Sinks.pure _)
    | i16 => exact Leads.protocol (a := (0 : Int16)) rfl (Sinks.pure _)
    | i32 => exact Leads.protocol (a := (0 : Int32)) rfl (Sinks.pure _)
    | i64 => exact Leads.protocol (a := (0 : Int64)) rfl (Sinks.pure _)
    | double => exact Leads.protocol (a := (0 : UInt64)) rfl (Sinks.pure _)
    | string =>
      dsimp only [WireValue.type]
      split
      · exact Leads.protocol (a := ([] : List UInt8)) rfl (Sinks.pure _)
      · exact Leads.protocol (a := ([] : List UInt8)) rfl (Sinks.pure _)
    | list et ws | set et ws =>
      refine Leads.protocol (a := (.STOP, 0)) rfl ?_
      dsimp only
      split
      · exact hrecord _ (Sinks.pure _)
      · split
        · exact hrecord _ (Sinks.pure _)
        · exact Sinks.bind (Sinks.pure []) fun _ => Leads.protocol (a := ()) rfl (Sinks.pure _)
    | map kt vt kvs =>
      refine Leads.protocol (a := (.STOP, .STOP, 0)) rfl ?_
      dsimp only
      split
      · exact Sinks.bind (Sinks.pure []) fun _ => Leads.protocol (a := ()) rfl (Sinks.pure _)
      · exact hrecord _ (Sinks.pure _)
    | struct fs =>
      have hbody : 1 ≤ (WireValue.bodyTokens fs).length := by simp [WireValue.bodyTokens]
      rw [WireValue.tokens_struct] at hn
      simp only [List.length_cons, List.length_append, List.length_nil] at hn
      refine Leads.protocol (a := ()) rfl ?_
      dsimp only
      split
      · exact (sinks_readUnion (hmakes rfl) (by omega)).bind fun _ =>
          Leads.protocol (a := ()) rfl (Sinks.pure _)
      · exact (sinks_readStruct (hmakes rfl) (by omega)).bind fun _ =>
          Leads.protocol (a := ()) rfl (Sinks.pure _)

theorem sinks_times {x : Reader Tape α} (toks : β → List Token) (v : β → Verdict) (items : List β)
    (framed : ∀ b ∈ items, v b = .framed → ∀ r,
      Outcome .framed (some (onTape (toks b) ++ r)) (some r) x)
    (escapes : ∀ b ∈ items, v b = .escapes → ∀ r, Sinks (some (onTape (toks b) ++ r)) x)
    (sunk : ∀ b ∈ items, Sinks none x) (h : Verdict.all (items.map v) = .escapes) (r : List Token) :
    Sinks (some (onTape (items.flatMap toks) ++ r)) (times x items.length) := by
  induction items with
  | nil => cases h
  | cons b items ih =>
    rw [List.flatMap_cons, onTape_append, List.append_assoc]
    rw [List.map_cons, Verdict.all] at h
    cases hv : v b with
    | framed =>
      rw [hv, Verdict.framed_seq] at h
      have hrest := ih (fun c hc => framed c (List.mem_cons_of_mem _ hc))
        (fun c hc => escapes c (List.mem_cons_of_mem _ hc))
        (fun c hc => sunk c (List.mem_cons_of_mem _ hc)) h
      exact Leads.after (framed b (by simp) hv _) fun a => hrest.bind fun as => Sinks.pure _
    | raises => simp [hv, Verdict.seq] at h
    | escapes =>
      have hloop : Sinks none (times x items.length) := by
        clear ih h
        induction items with
        | nil => exact Sinks.pure _
        | cons c items ih =>
          refine (sunk c (by simp)).bind fun _ => ?_
          refine (ih ?_ ?_ ?_).bind fun _ => Sinks.pure _
          · exact fun d hd => framed d (by simp at hd ⊢; tauto)
          · exact fun d hd => escapes d (by simp at hd ⊢; tauto)
          · exact fun d hd => sunk d (by simp at hd ⊢; tauto)
      exact (escapes b (by simp) hv _).bind fun a => hloop.bind fun as => Sinks.pure _

/-- The definitions inside one, itself included. -/
inductive Inside : FieldInfo → FieldInfo → Prop where
  | refl (fi : FieldInfo) : Inside fi fi
  | element {fi e x : FieldInfo} (h : fi.elementType = some e) (hx : Inside e x) : Inside fi x
  | key {fi k x : FieldInfo} (h : fi.keyType = some k) (hx : Inside k x) : Inside fi x

/-- The definition is in this one or in the table of a class. -/
def Met (sch : Schema) (fi x : FieldInfo) : Prop :=
  Inside fi x ∨ ∃ klass fields, sch.fieldInfoMap klass = some fields ∧
    ∃ e ∈ fields.entries, Inside e.2 x

/-- No map has values of a class whose constructor raises. -/
def MapsMade (sch : Schema) (fi : FieldInfo) : Prop :=
  ∀ x k e, Met sch fi x → x.keyType = some k → x.elementType = some e →
    sch.Cached e.klass → Makes sch e.klass

section MapsMade
variable {fi : FieldInfo}

theorem MapsMade.element {e : FieldInfo} (h : MapsMade sch fi) (he : fi.elementType = some e) :
    MapsMade sch e := by
  intro x k e' hx
  exact h x k e' (hx.imp_left (.element he))

theorem MapsMade.key {k : FieldInfo} (h : MapsMade sch fi) (hk : fi.keyType = some k) :
    MapsMade sch k := by
  intro x k' e hx
  exact h x k' e (hx.imp_left (.key hk))

theorem MapsMade.entry {klass : VALUE} {fields : FieldInfoMap} {e : Int16 × FieldInfo}
    (h : MapsMade sch fi) (hf : sch.fieldInfoMap klass = some fields) (he : e ∈ fields.entries) :
    MapsMade sch e.2 := by
  intro x k e' hx
  refine h x k e' (.inr ?_)
  rcases hx with hx | hx
  · exact ⟨klass, fields, hf, e, he, hx⟩
  · exact hx

end MapsMade

/-- What an escape does to a value on the tape. -/
def Loses (sch : Schema) (w : WireValue) : Prop :=
  ∀ (site : Site) (fi : FieldInfo) (n : ℕ) (r : List Token), MapsMade sch fi →
    verdict sch fi w = .escapes → w.tokens.length ≤ n →
    Sinks (some (onTape w.tokens ++ r)) (readAny lossyProtocol sch n site w.type fi)

theorem onTape_body (fid : Int16) (w : WireValue) (fs : List (Int16 × WireValue))
    (r : List Token) : onTape (WireValue.bodyTokens ((fid, w) :: fs)) ++ r =
      .fieldBegin w.type fid ::
        (onTape w.tokens ++ (.fieldEnd :: (onTape (WireValue.bodyTokens fs) ++ r))) := by
  rw [WireValue.bodyTokens_cons]
  change .fieldBegin w.type fid :: (onTape (w.tokens ++ (.fieldEnd :: _)) ++ r) = _
  rw [onTape_append, List.append_assoc]
  rfl

theorem framed_onTape {w : WireValue} (hw : w.WellFormed) (site : Site) (fi : FieldInfo) {n : ℕ}
    (hn : w.tokens.length ≤ n) (hv : verdict sch fi w = .framed) (r : List Token) :
    Outcome .framed (some (onTape w.tokens ++ r)) (some r)
      (readAny lossyProtocol sch n site w.type fi) :=
  hv ▸ frames lossyProtocol_framed w hw site fi n _ _ (lossy_consumes w.tokens r) hn

theorem skip_onTape {w : WireValue} (hw : w.WellFormed) (r : List Token) :
    lossyProtocol.skip w.type (some (onTape w.tokens ++ r)) = .ok ((), some r) :=
  lossyProtocol_framed.skip w _ _ hw (lossy_consumes w.tokens r)

theorem loses_fields (klass : VALUE) (fields : FieldInfoMap)
    (maps : ∀ e ∈ fields.entries, MapsMade sch e.2) (fs : List (Int16 × WireValue))
    (wf : ∀ f ∈ fs, f.2.WellFormed) (ih : ∀ f ∈ fs, Loses sch f.2) (ret : Instance) {n : ℕ}
    (hn : (WireValue.bodyTokens fs).length ≤ n) (hv : verdictFields sch fields fs = .escapes)
    (r : List Token) :
    Sinks (some (onTape (WireValue.bodyTokens fs) ++ r))
      (readFields lossyProtocol sch n klass fields ret) := by
  induction fs generalizing n ret with
  | nil => cases hv
  | cons f fs ihfs =>
    obtain ⟨fid, w⟩ := f
    have hw := wf (fid, w) (by simp)
    have hwf : ∀ g ∈ fs, g.2.WellFormed := fun g hg => wf g (List.mem_cons_of_mem _ hg)
    have hloses : ∀ g ∈ fs, Loses sch g.2 := fun g hg => ih g (List.mem_cons_of_mem _ hg)
    rw [WireValue.bodyTokens_cons] at hn
    simp only [List.length_cons, List.length_append] at hn
    have hwn : w.tokens.length ≤ n - 1 := by omega
    rw [onTape_body]
    rw [verdictFields] at hv
    cases n with
    | zero => omega
    | succ n =>
      rw [readFields]
      refine Leads.protocol (a := (w.type, fid)) rfl ?_
      simp only [WireValue.type_ne_stop, ↓reduceIte]
      cases hf : fields.find? fid with
      | none =>
        rw [hf] at hv
        refine Leads.protocol (skip_onTape hw _) (Leads.protocol (a := ()) rfl ?_)
        exact ihfs hwf hloses ret (by omega) hv
      | some fi =>
        simp only [hf] at hv
        dsimp only
        split_ifs at hv ⊢ with hne
        cases hvw : verdict sch fi w with
        | framed =>
          rw [hvw, Verdict.framed_seq] at hv
          refine Leads.after (framed_onTape hw .field fi hwn hvw _) fun a => ?_
          refine Leads.protocol (a := ()) rfl ?_
          exact ihfs hwf hloses _ (by omega) hv
        | raises => simp [hvw, Verdict.seq] at hv
        | escapes =>
          have hmaps := maps _ ((fields.find?_eq_some_iff fid fi).mp hf)
          refine (ih (fid, w) (by simp) .field fi n _ hmaps hvw hwn).bind fun a => ?_
          exact Leads.protocol (a := ()) rfl (sinks_readFields klass fields _ (by omega))

theorem loses_union {klass : VALUE} {fields : FieldInfoMap}
    (hf : sch.fieldInfoMap klass = some fields) (hmakes : Makes sch klass)
    (maps : ∀ e ∈ fields.entries, MapsMade sch e.2) (fs : List (Int16 × WireValue))
    (wf : ∀ f ∈ fs, f.2.WellFormed) (ih : ∀ f ∈ fs, Loses sch f.2) {n : ℕ}
    (hn : (WireValue.bodyTokens fs).length < n) (hv : verdictUnion sch fields fs = .escapes)
    (r : List Token) :
    Leads (fun t => t = none ∨ ∃ rest, t = some (onTape (WireValue.bodyTokens rest) ++ r))
      (some (onTape (WireValue.bodyTokens fs) ++ r)) (readUnion lossyProtocol sch n klass) := by
  cases n with
  | zero => omega
  | succ n =>
    cases fs with
    | nil => cases hv
    | cons f rest =>
      obtain ⟨fid, w⟩ := f
      have hw := wf (fid, w) (by simp)
      rw [WireValue.bodyTokens_cons] at hn
      simp only [List.length_cons, List.length_append] at hn
      have hwn : w.tokens.length ≤ n := by omega
      rw [verdictUnion] at hv
      rw [onTape_body, readUnion]
      refine Leads.after (outcome_made hf hmakes _) fun ret => leads_findFieldInfoMap hf ?_
      refine Leads.protocol (a := (w.type, fid)) rfl ?_
      simp only [WireValue.type_ne_stop, ↓reduceIte]
      cases hfind : fields.find? fid with
      | none =>
        -- The early return: the rest of the body and its stop byte stay where they are.
        exact Leads.protocol (skip_onTape hw _) (Leads.protocol (a := ()) rfl
          (Leads.pure _ (.inr ⟨rest, rfl⟩)))
      | some fi =>
        simp only [hfind] at hv
        have hvw : verdict sch fi w = .escapes := by
          cases hvw : verdict sch fi w with
          | framed =>
            rw [hvw, Verdict.framed_seq] at hv
            split_ifs at hv
          | raises => simp [hvw, Verdict.seq] at hv
          | escapes => rfl
        refine Leads.after (outcome_record _ _) fun _ => ?_
        have hmaps := maps _ ((fields.find?_eq_some_iff fid fi).mp hfind)
        refine (ih (fid, w) (by simp) .member fi n _ hmaps hvw hwn).bind fun a => ?_
        refine Leads.protocol (a := ()) rfl (Leads.protocol (a := (.STOP, 0)) rfl ?_)
        exact Leads.pure _ (.inl rfl)

theorem structEnd_sinks (fs : List (Int16 × WireValue)) (r : List Token) :
    lossyReads.readStructEnd (some (onTape (WireValue.bodyTokens fs) ++ r)) = .ok ((), none) := by
  cases fs with
  | nil => rfl
  | cons f fs =>
    obtain ⟨fid, w⟩ := f
    rw [onTape_body]
    rfl

theorem sinks_elements {e : FieldInfo} (maps : MapsMade sch e) {ws : List WireValue}
    (elems : ∀ w ∈ ws, w.WellFormed) (types : ∀ w ∈ ws, w.type = e.ftype)
    (ih : ∀ w ∈ ws, Loses sch w) {n : ℕ} (hn : (ws.flatMap WireValue.tokens).length ≤ n)
    (hv : verdictElems sch e ws = .escapes) (r : List Token) :
    Sinks (some (onTape (ws.flatMap WireValue.tokens) ++ r))
      (times (readAny lossyProtocol sch n .element e.ftype e) ws.length) := by
  have hlen : ∀ w ∈ ws, w.tokens.length ≤ n := fun w hw => by
    have := length_le_flatMap WireValue.tokens hw
    omega
  rw [verdictElems_eq] at hv
  have hmakes : ∀ w ∈ ws, w.type = .STRUCT → sch.Cached e.klass → Makes sch e.klass := by
    intro w hw ht hc
    obtain ⟨w', hw', hescapes⟩ := List.mem_map.mp (Verdict.exists_escapes hv)
    have ht' : w'.type = .STRUCT := (types w' hw').trans ((types w hw).symm.trans ht)
    exact makes_of_verdict (by rw [hescapes]; exact Verdict.noConfusion) ht' hc
  refine sinks_times WireValue.tokens (verdict sch e) ws ?_ ?_ ?_ hv r
  · intro w hw hvw r
    have h := framed_onTape (elems w hw) .element e (hlen w hw) hvw r
    rwa [types w hw] at h
  · intro w hw hvw r
    have h := ih w hw .element e n r maps hvw (hlen w hw)
    rwa [types w hw] at h
  · intro w hw
    have h := sinks_readAny w .element e (hmakes w hw) (hlen w hw)
    rwa [types w hw] at h

theorem onTape_sequence (et : TType) (size : UInt32) (xs r : List Token) :
    onTape (.listBegin et size :: (xs ++ [.listEnd])) ++ r =
      .listBegin et size :: (onTape xs ++ r) := by
  change .listBegin et size :: (onTape (xs ++ [.listEnd]) ++ r) = _
  rw [onTape_append]
  simp [onTape]

theorem onTape_map (kt vt : TType) (size : UInt32) (xs r : List Token) :
    onTape (.mapBegin kt vt size :: (xs ++ [.mapEnd])) ++ r =
      .mapBegin kt vt size :: (onTape xs ++ r) := by
  change .mapBegin kt vt size :: (onTape (xs ++ [.mapEnd]) ++ r) = _
  rw [onTape_append]
  simp [onTape]

theorem loses_list {et : TType} {ws : List WireValue} (hw : (WireValue.list et ws).WellFormed)
    (ih : ∀ w ∈ ws, w.WellFormed → Loses sch w) : Loses sch (.list et ws) := by
  cases hw with
  | list _ _ size wire types elems =>
    intro site fi n r maps hv hn
    rw [WireValue.tokens, WireValue.elemTokens_eq] at hn ⊢
    simp only [List.length_cons, List.length_append] at hn
    cases n with
    | zero => omega
    | succ n =>
      unfold readAny
      rw [onTape_sequence]
      refine Leads.after (outcome_record _ _) fun _ => Leads.protocol (a := (et, _)) rfl ?_
      simp only [ofNat_toNat_lt size]
      cases he : fi.elementType with
      | none => simp [verdict, he] at hv
      | some e =>
        simp only [verdict, he] at hv
        split_ifs at hv with hne
        obtain rfl : et = e.ftype := not_not.mp hne
        simp only [ne_eq, not_true_eq_false, ↓reduceIte]
        have hloop := sinks_elements (n := n) (maps.element he) elems types
          (fun w hw => ih w hw (elems w hw)) (by omega) hv r
        exact hloop.bind fun vs => Leads.protocol (a := ()) rfl (Sinks.pure _)

theorem loses_set {et : TType} {ws : List WireValue} (hw : (WireValue.set et ws).WellFormed)
    (ih : ∀ w ∈ ws, w.WellFormed → Loses sch w) : Loses sch (.set et ws) := by
  cases hw with
  | set _ _ size wire types elems =>
    intro site fi n r maps hv hn
    rw [WireValue.tokens, WireValue.elemTokens_eq] at hn ⊢
    simp only [List.length_cons, List.length_append] at hn
    cases n with
    | zero => omega
    | succ n =>
      unfold readAny
      rw [onTape_sequence]
      refine Leads.after (outcome_record _ _) fun _ => Leads.protocol (a := (et, _)) rfl ?_
      simp only [ofNat_toNat_lt size]
      cases he : fi.elementType with
      | none => simp [verdict, he] at hv
      | some e =>
        simp only [verdict, he] at hv
        split_ifs at hv with hne
        obtain rfl : et = e.ftype := not_not.mp hne
        simp only [ne_eq, not_true_eq_false, ↓reduceIte]
        have hloop := sinks_elements (n := n) (maps.element he) elems types
          (fun w hw => ih w hw (elems w hw)) (by omega) hv r
        exact hloop.bind fun vs => Leads.protocol (a := ()) rfl (Sinks.pure _)

theorem sinks_entries {k e : FieldInfo} (mapsKey : MapsMade sch k) (mapsValue : MapsMade sch e)
    (hmade : sch.Cached e.klass → Makes sch e.klass) {kt vt : TType}
    {kvs : List (WireValue × WireValue)} (types : ∀ kv ∈ kvs, kv.1.type = kt ∧ kv.2.type = vt)
    (keys : ∀ kv ∈ kvs, kv.1.WellFormed) (values : ∀ kv ∈ kvs, kv.2.WellFormed)
    (ih : ∀ kv ∈ kvs, Loses sch kv.1 ∧ Loses sch kv.2) {n : ℕ}
    (hn : (kvs.flatMap fun kv => kv.1.tokens ++ kv.2.tokens).length ≤ n)
    (hv : verdictEntries sch k e kvs = .escapes) (r : List Token) :
    Sinks (some (onTape (kvs.flatMap fun kv => kv.1.tokens ++ kv.2.tokens) ++ r))
      (times (do
        record (.header .key kt k)
        let key ← readAny lossyProtocol sch n .key kt k
        record (.header .value vt e)
        let value ← readAny lossyProtocol sch n .value vt e
        pure (key, value)) kvs.length) := by
  have hlen : ∀ kv ∈ kvs, kv.1.tokens.length ≤ n ∧ kv.2.tokens.length ≤ n := by
    intro kv hkv
    have := length_le_flatMap (fun kv : WireValue × WireValue => kv.1.tokens ++ kv.2.tokens) hkv
    simp only [List.length_append] at this
    omega
  rw [verdictEntries_eq] at hv
  -- A key that escapes, or goes before a value that does, was made.
  have hmakes : ∀ kv ∈ kvs, kv.1.type = .STRUCT → sch.Cached k.klass → Makes sch k.klass := by
    intro kv hkv ht hc
    obtain ⟨kv', hkv', hescapes⟩ := List.mem_map.mp (Verdict.exists_escapes hv)
    have ht' : kv'.1.type = .STRUCT := (types kv' hkv').1.trans ((types kv hkv).1.symm.trans ht)
    refine makes_of_verdict (fun hraises => ?_) ht' hc
    rw [hraises] at hescapes
    cases hescapes
  refine sinks_times _ _ kvs ?_ ?_ ?_ hv r
  · intro kv hkv hvk r
    obtain ⟨hvx, hvy⟩ := Verdict.seq_eq_framed hvk
    have hkey := framed_onTape (keys kv hkv) .key k (hlen kv hkv).1 hvx
    have hval := framed_onTape (values kv hkv) .value e (hlen kv hkv).2 hvy r
    rw [(types kv hkv).1] at hkey
    rw [(types kv hkv).2] at hval
    rw [onTape_append, List.append_assoc]
    exact (outcome_record _ _).then fun _ => (hkey _).then fun key =>
      (outcome_record _ _).then fun _ => hval.then fun value => Outcome.pure _ _
  · intro kv hkv hvk r
    rw [onTape_append, List.append_assoc]
    refine Leads.after (outcome_record _ _) fun _ => ?_
    rcases Verdict.seq_eq_escapes hvk with hvx | ⟨hvx, hvy⟩
    · have hkey := (ih kv hkv).1 .key k n (onTape kv.2.tokens ++ r) mapsKey hvx (hlen kv hkv).1
      have hval := sinks_readAny kv.2 .value e (fun _ => hmade) (hlen kv hkv).2
      rw [(types kv hkv).1] at hkey
      rw [(types kv hkv).2] at hval
      exact hkey.bind fun key => Leads.after (outcome_record _ _) fun _ =>
        hval.bind fun value => Sinks.pure _
    · have hkey := framed_onTape (keys kv hkv) .key k (hlen kv hkv).1 hvx
        (onTape kv.2.tokens ++ r)
      have hval := (ih kv hkv).2 .value e n r mapsValue hvy (hlen kv hkv).2
      rw [(types kv hkv).1] at hkey
      rw [(types kv hkv).2] at hval
      exact Leads.after hkey fun key => Leads.after (outcome_record _ _) fun _ =>
        hval.bind fun value => Sinks.pure _
  · intro kv hkv
    have hkey := sinks_readAny kv.1 .key k (hmakes kv hkv) (hlen kv hkv).1
    have hval := sinks_readAny kv.2 .value e (fun _ => hmade) (hlen kv hkv).2
    rw [(types kv hkv).1] at hkey
    rw [(types kv hkv).2] at hval
    exact Leads.after (outcome_record _ _) fun _ => hkey.bind fun key =>
      Leads.after (outcome_record _ _) fun _ => hval.bind fun value => Sinks.pure _

theorem loses_map {kt vt : TType} {kvs : List (WireValue × WireValue)}
    (hw : (WireValue.map kt vt kvs).WellFormed)
    (ih : ∀ kv ∈ kvs, (kv.1.WellFormed → Loses sch kv.1) ∧ (kv.2.WellFormed → Loses sch kv.2)) :
    Loses sch (.map kt vt kvs) := by
  cases hw with
  | map _ _ _ size keyWire valueWire types keys values =>
    intro site fi n r maps hv hn
    rw [WireValue.tokens, WireValue.entryTokens_eq] at hn ⊢
    simp only [List.length_cons, List.length_append] at hn
    cases n with
    | zero => omega
    | succ n =>
      unfold readAny
      rw [onTape_map]
      refine Leads.after (outcome_record _ _) fun _ => Leads.protocol (a := (kt, vt, _)) rfl ?_
      simp only [ofNat_toNat_lt size]
      cases hk : fi.keyType with
      | none => simp [verdict, hk] at hv
      | some k =>
        cases he : fi.elementType with
        | none => simp [verdict, hk, he] at hv
        | some e =>
          simp only [verdict, hk, he] at hv
          have hloop := sinks_entries (n := n) (maps.key hk) (maps.element he)
            (maps fi k e (.inl (.refl fi)) hk he) types keys values
            (fun kv hkv => ⟨(ih kv hkv).1 (keys kv hkv), (ih kv hkv).2 (values kv hkv)⟩)
            (by omega) hv r
          exact hloop.bind fun ret => Leads.protocol (a := ()) rfl (Sinks.pure _)

theorem loses_struct {fs : List (Int16 × WireValue)} (wf : ∀ f ∈ fs, f.2.WellFormed)
    (ih : ∀ f ∈ fs, Loses sch f.2) : Loses sch (.struct fs) := by
  intro site fi n r maps hv hn
  rw [WireValue.tokens_struct] at hn ⊢
  simp only [List.length_cons, List.length_append, List.length_nil] at hn
  have hbody : 1 ≤ (WireValue.bodyTokens fs).length := by simp [WireValue.bodyTokens]
  obtain ⟨n, rfl⟩ : ∃ m, n = m + 1 + 1 := ⟨n - 2, by omega⟩
  unfold readAny
  have htape : onTape (.structBegin :: (WireValue.bodyTokens fs ++ [.structEnd])) ++ r =
      .structBegin :: (onTape (WireValue.bodyTokens fs) ++ (.structEnd :: r)) := by
    change .structBegin :: (onTape (WireValue.bodyTokens fs ++ [.structEnd]) ++ r) = _
    rw [onTape_append, List.append_assoc]
    rfl
  rw [htape]
  refine Leads.after (outcome_record _ _) fun _ => Leads.protocol (a := ()) rfl ?_
  simp only [verdict] at hv
  cases hf : sch.fieldInfoMap fi.klass with
  | none =>
    -- No class: making the instance is the crash.
    have hcached : ¬ sch.Cached fi.klass := by simp [Schema.Cached, hf]
    have crash : ∀ {α : Type} {R : Tape → Prop} {s : Tape} {f : Instance → Reader Tape α},
        Leads R s (newInstance sch fi.klass >>= f) := fun {_ _ _ _} =>
      leads_newInstance (fun h => absurd h hcached) fun fields h => by simp [hf] at h
    split_ifs
    · rw [readUnion]
      exact Sinks.bind crash fun _ => Leads.protocol (a := ()) rfl (Sinks.pure _)
    · rw [readStruct]
      exact Sinks.bind crash fun _ => Leads.protocol (a := ()) rfl (Sinks.pure _)
  | some table =>
    rw [hf] at hv
    dsimp only at hv
    obtain ⟨hmakes, hv⟩ := escapes_made hv
    have hmaps : ∀ e ∈ table.entries, MapsMade sch e.2 := fun e he => maps.entry hf he
    split_ifs at hv ⊢ with hun
    · have hunion := loses_union hf hmakes hmaps fs wf ih (by omega : _ < n + 1) hv
      refine Leads.bind (hunion _) fun ret t ht => ?_
      rcases ht with rfl | ⟨rest, rfl⟩
      · exact Leads.protocol (a := ()) rfl (Sinks.pure _)
      · exact Leads.protocol (structEnd_sinks rest _) (Sinks.pure _)
    · have hstruct : Sinks (some (onTape (WireValue.bodyTokens fs) ++ (.structEnd :: r)))
          (readStruct lossyProtocol sch (n + 1) fi.klass) := by
        rw [readStruct]
        exact Leads.after (outcome_made hf hmakes _) fun ret => leads_findFieldInfoMap hf
          (loses_fields fi.klass table hmaps fs wf ih ret (by omega) hv _)
      exact hstruct.bind fun ret => Leads.protocol (a := ()) rfl (Sinks.pure _)

theorem loses (w : WireValue) (hw : w.WellFormed) : Loses sch w := by
  induction w using WireValue.induct with
  | bool | byte | i16 | i32 | i64 | double | string =>
    intro site fi n r _ hv
    cases hv
  | list et ws ih => exact loses_list hw ih
  | set et ws ih => exact loses_set hw ih
  | map kt vt kvs ih => exact loses_map hw ih
  | struct fs ih =>
    cases hw with
    | struct _ fields => exact loses_struct fields fun f hf => ih f hf (fields f hf)

end Lossy

/-- From the start of `toks` the run raises or stops exactly at their end, over
    every protocol, whatever follows. -/
def FramesEverywhere (toks : List Token)
    (x : (σ : Type) → TProtocol σ → ℕ → Reader σ Value) : Prop :=
  ∀ (σ : Type) (P : TProtocol σ), P.Framed → ∀ (n : ℕ) (st : RState σ) (r : σ),
    P.Consumes st.input toks r → toks.length < n →
    Spec (x σ P n) st (fun _ u => u.input = r) (fun e _ => e.isRaise = true)

theorem framesEverywhere_of_outcome {toks : List Token}
    {x : (σ : Type) → TProtocol σ → ℕ → Reader σ Value} {v : Verdict} (hv : v ≠ .escapes)
    (h : ∀ (σ : Type) (P : TProtocol σ), P.Framed → ∀ (n : ℕ) (s r : σ),
      P.Consumes s toks r → toks.length < n → Outcome v s r (x σ P n)) :
    FramesEverywhere toks x := by
  intro σ P hP n st r hc hn
  have hout := h σ P hP n st.input r hc hn st rfl
  cases v with
  | framed => exact hout.mono (fun _ _ h => h) fun _ _ h => h.elim
  | raises => exact hout.mono (fun _ _ h => h.elim) fun _ _ h => h
  | escapes => exact absurd rfl hv

theorem not_framesEverywhere {toks : List Token}
    {x : (σ : Type) → TProtocol σ → ℕ → Reader σ Value} {R : Tape → Prop} (hR : ¬ R (some []))
    (h : Leads R (some (onTape toks ++ [])) (x Tape lossyProtocol (toks.length + 1))) :
    ¬ FramesEverywhere toks x := by
  intro hall
  have hframes := hall Tape lossyProtocol lossyProtocol_framed (toks.length + 1)
    { input := some (onTape toks ++ []) } (some []) (lossy_consumes toks []) (by omega)
  have hleads := h { input := some (onTape toks ++ []) } rfl
  unfold Spec at hframes hleads
  cases hx : x Tape lossyProtocol (toks.length + 1) { input := some (onTape toks ++ []) } with
  | ok v u =>
    simp only [hx] at hframes hleads
    exact hR (hframes ▸ hleads)
  | error e u =>
    simp only [hx] at hframes hleads
    simp [hleads, Err.isRaise] at hframes

/-- The decoder keeps the frame of a value, of a struct body and of a union body where
    neither way out of it is met. Where one is, it does not, unless the value of a map
    whose key left the frame raises. -/
theorem framing_iff (sch : Schema) :
    (∀ (fi : FieldInfo) (w : WireValue) (site : Site), w.WellFormed →
      (verdict sch fi w ≠ .escapes →
        FramesEverywhere w.tokens fun _ P n => readAny P sch n site w.type fi) ∧
      (MapsMade sch fi →
        FramesEverywhere w.tokens (fun _ P n => readAny P sch n site w.type fi) →
        verdict sch fi w ≠ .escapes)) ∧
    ∀ (klass : VALUE) (fields : FieldInfoMap) (fs : List (Int16 × WireValue)),
      sch.fieldInfoMap klass = some fields → (∀ f ∈ fs, f.2.WellFormed) →
      ((verdictNew sch klass).seq (verdictFields sch fields fs) ≠ .escapes →
        FramesEverywhere (WireValue.bodyTokens fs) fun _ P n => readStruct P sch n klass) ∧
      ((verdictNew sch klass).seq (verdictUnion sch fields fs) ≠ .escapes →
        FramesEverywhere (WireValue.bodyTokens fs) fun _ P n => readUnion P sch n klass) ∧
      (MapsMade sch (classInfo klass) →
        (FramesEverywhere (WireValue.bodyTokens fs) (fun _ P n => readStruct P sch n klass) →
          (verdictNew sch klass).seq (verdictFields sch fields fs) ≠ .escapes) ∧
        (FramesEverywhere (WireValue.bodyTokens fs) (fun _ P n => readUnion P sch n klass) →
          (verdictNew sch klass).seq (verdictUnion sch fields fs) ≠ .escapes)) := by
  refine ⟨fun fi w site hw => ⟨?_, ?_⟩, fun klass fields fs hf hw =>
    ⟨?_, ?_, fun hmaps => ⟨?_, ?_⟩⟩⟩
  · intro hv
    refine framesEverywhere_of_outcome hv fun σ P hP n s r hc hn => ?_
    exact frames hP w hw site fi n s r hc (by omega)
  · intro hmaps hframes hv
    refine not_framesEverywhere (R := (· = none)) (by simp) ?_ hframes
    exact loses w hw site fi _ [] hmaps hv (by omega)
  · intro hv
    refine framesEverywhere_of_outcome hv fun σ P hP n s r hc hn => ?_
    exact outcome_readStruct hP hf fs hw (fun f hm => frames hP f.2 (hw f hm)) hc hn
  · intro hv
    refine framesEverywhere_of_outcome hv fun σ P hP n s r hc hn => ?_
    exact outcome_readUnion hf fs (fun f hm => frames hP f.2 (hw f hm)) hc hn
  · intro hframes hv
    obtain ⟨hmakes, hv⟩ := escapes_made hv
    refine not_framesEverywhere (R := (· = none)) (by simp) ?_ hframes
    rw [readStruct]
    refine Leads.after (outcome_made hf hmakes _) fun ret => leads_findFieldInfoMap hf ?_
    exact loses_fields klass fields (fun e he => hmaps.entry hf he) fs hw
      (fun f hm => loses f.2 (hw f hm)) ret (by omega) hv []
  · intro hframes hv
    obtain ⟨hmakes, hv⟩ := escapes_made hv
    refine not_framesEverywhere ?_ (loses_union hf hmakes (fun e he => hmaps.entry hf he) fs hw
      (fun f hm => loses f.2 (hw f hm)) (by omega) hv []) hframes
    rintro (h | ⟨rest, h⟩)
    · cases h
    · rw [Option.some.injEq, List.append_nil] at h
      cases rest with
      | nil => cases h
      | cons f rest =>
        obtain ⟨fid, w⟩ := f
        have hb := onTape_body fid w rest []
        rw [List.append_nil] at hb
        rw [hb] at h
        cases h

open BinaryProtocol Loading

theorem mapsMade_of_makes {sch : Schema} (h : ∀ klass, Makes sch klass) (fi : FieldInfo) :
    MapsMade sch fi := fun _ _ e _ _ _ _ => h e.klass

/-- `SS` with a union that holds its first member, then a field `SS` does not know; and
    with a union whose member it does not know. -/
theorem framing_iff_ss :
    FramesEverywhere (WireValue.struct [(8, .struct [(1, .i32 7)]), (99, .bool true)]).tokens
      (fun _ P n => readAny P userProgram.schema n .field .STRUCT (classInfo 32)) ∧
    FramesEverywhere (WireValue.bodyTokens [(1, .i32 7)])
      (fun _ P n => readUnion P userProgram.schema n 16) ∧
    ¬ FramesEverywhere (WireValue.struct [(8, .struct [(99, .bool true)])]).tokens
      (fun _ P n => readAny P userProgram.schema n .field .STRUCT (classInfo 32)) := by
  have hun : ∀ f ∈ ([(1, .i32 7)] : List (Int16 × WireValue)), f.2.WellFormed := by
    simpa using WireValue.WellFormed.i32 7
  have hmakes := makes_of_defs userProgram (by decide +kernel)
  refine ⟨((framing_iff userProgram.schema).1 (classInfo 32) _ .field ?_).1 (by decide +kernel),
    ?_, fun h => ?_⟩
  · refine .struct _ ?_
    simpa using ⟨.struct _ hun, WireValue.WellFormed.bool true⟩
  · obtain ⟨fields, hf⟩ : ∃ fields, userProgram.schema.fieldInfoMap 16 = some fields :=
      Option.isSome_iff_exists.mp (by decide +kernel)
    refine ((framing_iff userProgram.schema).2 16 fields _ hf hun).2.1 ?_
    have hfields : fields = (userProgram.schema.fieldInfoMap 16).get (by decide +kernel) := by
      simp [hf]
    rw [hfields]
    decide +kernel
  · have hw : (WireValue.struct [(8, .struct [(99, .bool true)])]).WellFormed := by
      refine .struct _ ?_
      simpa using WireValue.WellFormed.struct _ (by simpa using WireValue.WellFormed.bool true)
    exact ((framing_iff userProgram.schema).1 (classInfo 32) _ .field hw).2
      (mapsMade_of_makes hmakes _) h (by decide +kernel)

/-- `SS` with a union whose member `SS`'s program does not know, then `id_i32`: the
    union's stop byte ends the struct and the last field stays unread. -/
theorem union_unknown_member_unframed :
    ¬ FramesEverywhere (WireValue.struct [(8, .struct [(99, .i32 1)]), (1, .i32 7)]).tokens
      (fun _ P n => readAny P userProgram.schema n .field .STRUCT (classInfo 32)) := by
  intro h
  have hw : (WireValue.struct [(8, .struct [(99, .i32 1)]), (1, .i32 7)]).WellFormed := by
    refine .struct _ ?_
    simp only [List.mem_cons, List.not_mem_nil, or_false, forall_eq_or_imp, forall_eq]
    refine ⟨.struct _ ?_, .i32 7⟩
    simpa using WireValue.WellFormed.i32 1
  obtain ⟨s, hs⟩ : ∃ s, s =
    (WireValue.struct [(8, .struct [(99, .i32 1)]), (1, .i32 7)]).tokens.flatMap
      tokenBytes ++ [] := ⟨_, rfl⟩
  have hc := consumes_flatMap _ [] (tokens_valid _ hw)
  rw [← hs] at hc
  have hrun := h _ binaryProtocol binaryProtocol_framed 40 { input := s } [] hc (by decide)
  have hleft : (match readAny binaryProtocol userProgram.schema 40 .field .STRUCT (classInfo 32)
      { input := s } with
      | .ok _ u => !u.input.isEmpty
      | .error _ _ => false) = true := by
    rw [hs]
    decide +kernel
  unfold Spec at hrun
  dsimp only at hrun
  cases hrun' : readAny binaryProtocol userProgram.schema 40 .field .STRUCT (classInfo 32)
      { input := s } with
  | ok v u =>
    simp only [hrun', Bool.not_eq_true', List.isEmpty_eq_false_iff] at hrun hleft
    exact hleft hrun
  | error e u => simp [hrun'] at hleft

end Sparsam.DecoderFraming
