import Sparsam.DecoderFraming
import Sparsam.SerializerRoundTrip

set_option autoImplicit false

/-!
# What the decoder makes of a value on the wire

`decoded` is the value `readAny` returns for a wire value that it leaves at its
end: a function of the schema, of the definition the value is read for and of
the next identity, which it hands on. The protocol, the fuel and the order of
the calls are gone.
-/
namespace Sparsam.DecodedValue
open WireProtocol RubyRuntime FieldInfoCache ObjectMethods ExceptionState SerializerWrite
open SerializerRead ObjectAgreement GenericSkip DecoderFraming SerializerRoundTrip

def created (sch : Schema) (klass : VALUE) (oid : ℕ) : Instance :=
  ⟨oid, klass, newIvars sch klass⟩

section Decoded
variable (sch : Schema)

mutual
def decoded (fi : FieldInfo) : WireValue → ℕ → Value × ℕ
  | .bool b, next => (.bool b, next)
  | .byte n, next => (.int n.toInt, next)
  | .i16 n, next => (.int n.toInt, next)
  | .i32 n, next => (.int n.toInt, next)
  | .i64 n, next => (.int n.toInt, next)
  | .double bits, next => (.float bits, next)
  | .string _ bytes, next => (.str (if fi.isBinaryString then .binary else .utf8) bytes, next)
  | .list et ws, next =>
    match fi.elementType with
    | none => (.nil, next)
    | some e =>
      if et ≠ e.ftype then (.nil, next)
      else
        let (ret, next) := decodedElems e ws next
        (.ary ret, next)
  | .set et ws, next =>
    match fi.elementType with
    | none => (.nil, next)
    | some e =>
      if et ≠ e.ftype then (.nil, next)
      else
        let (ary, next) := decodedElems e ws next
        (.set (setNew sch.isUnion ary), next)
  | .map _ _ kvs, next =>
    match fi.keyType, fi.elementType with
    | some k, some e =>
      let (ret, next) := decodedEntries k e kvs next
      (.hash (ret.foldl (fun h e => hashAset sch.isUnion h e.1 e.2) []), next)
    | _, _ => (.nil, next)
  | .struct fs, next =>
    match sch.fieldInfoMap fi.klass with
    | none => (.nil, next)
    | some fields =>
      let ret := created sch fi.klass next
      let (ret, next) := if sch.isUnion fi.klass then decodedUnion fields fs ret (next + 1)
        else decodedFields fields fs ret (next + 1)
      (ret.toValue, next)

def decodedElems (e : FieldInfo) : List WireValue → ℕ → List Value × ℕ
  | [], next => ([], next)
  | w :: ws, next =>
    let (x, next) := decoded e w next
    let (xs, next) := decodedElems e ws next
    (x :: xs, next)

def decodedEntries (k e : FieldInfo) : List (WireValue × WireValue) → ℕ →
    List (Value × Value) × ℕ
  | [], next => ([], next)
  | (x, y) :: kvs, next =>
    let (key, next) := decoded k x next
    let (value, next) := decoded e y next
    let (ret, next) := decodedEntries k e kvs next
    ((key, value) :: ret, next)

/-- The loop of `readStruct`. -/
def decodedFields (fields : FieldInfoMap) : List (Int16 × WireValue) → Instance → ℕ →
    Instance × ℕ
  | [], ret, next => (ret, next)
  | (fid, w) :: fs, ret, next =>
    match fields.find? fid with
    | none => decodedFields fields fs ret next
    | some fi =>
      let (rbValue, next) := decoded fi w next
      decodedFields fields fs (if rbValue.isNil then ret else ret.set fi.ivarName rbValue) next

def decodedUnion (fields : FieldInfoMap) : List (Int16 × WireValue) → Instance → ℕ →
    Instance × ℕ
  | [], ret, next => (ret, next)
  | (fid, w) :: _, ret, next =>
    match fields.find? fid with
    | none => (ret, next)
    | some fi =>
      let (rbValue, next) := decoded fi w next
      (if rbValue.isNil then ret
        else (ret.set "@setfield" (.sym fi.symName)).set fi.ivarName rbValue, next)
end

end Decoded

section Returns
variable {σ α β : Type}

/-- From the input `s`, with `lo` the next identity, the run returns `r` at `t`. -/
def Returns (lo : ℕ) (s t : σ) (x : Reader σ α) (r : α × ℕ) : Prop :=
  Run True lo s t x fun hi a => (a, hi) = r

variable {lo : ℕ} {s t u : σ}

theorem Returns.pure (a : α) : Returns lo s s (Pure.pure a : Reader σ α) (a, lo) :=
  Run.pure trivial rfl

theorem Returns.bind {x : Reader σ α} {f : α → Reader σ β} {a : α} {mid : ℕ} {q : β × ℕ}
    (hx : Returns lo s t x (a, mid)) (hf : Returns mid t u (f a) q) :
    Returns lo s u (x >>= f) q := by
  refine Run.seq hx fun hi b _ hb => ?_
  obtain ⟨rfl, rfl⟩ := Prod.mk.inj hb
  exact hf

theorem Returns.protocol {f : σ → Except TException (α × σ)} {a : α} {g : α → Reader σ β}
    {q : β × ℕ} (hf : f s = .ok (a, t)) (hg : Returns lo t u (g a) q) :
    Returns lo s u (SerializerRead.protocol f >>= g) q := Run.protocol hf hg

theorem Returns.record {e : Event} {g : Unit → Reader σ β} {q : β × ℕ}
    (hg : Returns lo s u (g ()) q) : Returns lo s u (SerializerRead.record e >>= g) q :=
  Run.record hg

theorem returns_protocol {f : σ → Except TException (α × σ)} {a : α} (hf : f s = .ok (a, t)) :
    Returns lo s t (SerializerRead.protocol f) (a, lo) := by
  rintro st rfl rfl
  have hrun : SerializerRead.protocol f st = .ok a { st with input := t } := by
    simp only [SerializerRead.protocol, hf]
  unfold Spec
  rw [hrun]
  exact ⟨trivial, rfl, le_refl _, rfl⟩

theorem returns_newInstance {sch : Schema} {klass : VALUE} {fields : FieldInfoMap}
    (hf : sch.fieldInfoMap klass = some fields) (hmakes : Makes sch klass) (lo : ℕ) (s : σ) :
    Returns lo s s (newInstance sch klass) (created sch klass lo, lo + 1) := by
  refine ((run_newInstance hf lo s).mono fun hi ret _ hret => ?_).iff (iff_true_intro hmakes)
  obtain ⟨rfl, rfl⟩ := hret
  rfl

theorem returns_findFieldInfoMap {sch : Schema} {klass : VALUE} {fields : FieldInfoMap}
    (hf : sch.fieldInfoMap klass = some fields) {g : FieldInfoMap → Reader σ β} {q : β × ℕ}
    (hg : Returns lo s t (g fields) q) : Returns lo s t (findFieldInfoMap sch klass >>= g) q :=
  run_findFieldInfoMap hf hg

def inTurn {γ : Type} (make : γ → ℕ → β × ℕ) : List γ → ℕ → List β × ℕ
  | [], next => ([], next)
  | c :: items, next =>
    ((make c next).1 :: (inTurn make items (make c next).2).1,
      (inTurn make items (make c next).2).2)

theorem returns_times {P : TReader σ} {γ : Type} {x : Reader σ β} (toks : γ → List Token)
    (make : γ → ℕ → β × ℕ) (items : List γ)
    (step : ∀ c ∈ items, ∀ lo s t, P.Consumes s (toks c) t → Returns lo s t x (make c lo))
    (h : P.Consumes s (items.flatMap toks) t) :
    Returns lo s t (times x items.length) (inTurn make items lo) := by
  induction items generalizing s lo with
  | nil =>
    obtain rfl : s = t := h
    exact Returns.pure []
  | cons c items ih =>
    rw [List.flatMap_cons, TReader.consumes_append] at h
    obtain ⟨u, hu, ht⟩ := h
    have hhead := step c (by simp) lo s u hu
    have htail :
        Returns (make c lo).2 u t (times x items.length) (inTurn make items (make c lo).2) :=
      ih (fun d hd => step d (List.mem_cons_of_mem _ hd)) ht
    exact hhead.bind (htail.bind (Returns.pure _))

end Returns

section Equations
variable (sch : Schema)

theorem decodedElems_eq (e : FieldInfo) (ws : List WireValue) (next : ℕ) :
    decodedElems sch e ws next = inTurn (decoded sch e) ws next := by
  induction ws generalizing next with
  | nil => rfl
  | cons w ws ih => simp only [decodedElems, inTurn, ih]

def decodedEntry (k e : FieldInfo) (kv : WireValue × WireValue) (next : ℕ) : (Value × Value) × ℕ :=
  (((decoded sch k kv.1 next).1, (decoded sch e kv.2 (decoded sch k kv.1 next).2).1),
    (decoded sch e kv.2 (decoded sch k kv.1 next).2).2)

theorem decodedEntries_eq (k e : FieldInfo) (kvs : List (WireValue × WireValue)) (next : ℕ) :
    decodedEntries sch k e kvs next = inTurn (decodedEntry sch k e) kvs next := by
  induction kvs generalizing next with
  | nil => rfl
  | cons kv kvs ih =>
    obtain ⟨x, y⟩ := kv
    simp only [decodedEntries, inTurn, ih, decodedEntry]

end Equations

section Readers
variable {σ : Type} (P : TProtocol σ) (sch : Schema)

/-- What the reader owes a framed value: with a unit of fuel for each token it
    returns the decoded value at its end. -/
def Decodes (w : WireValue) : Prop :=
  ∀ (site : Site) (fi : FieldInfo) (n lo : ℕ) (s t : σ), verdict sch fi w = .framed →
    P.Consumes s w.tokens t → w.tokens.length ≤ n →
    Returns lo s t (readAny P sch n site w.type fi) (decoded sch fi w lo)

variable {P sch}

theorem decodes_scalar {α : Type} {w : WireValue} {tok : Token} {f : σ → Except TException (α × σ)}
    {g : FieldInfo → α → Value} {a : α} (htok : w.tokens = [tok])
    (hread : ∀ s t, P.Reads tok s t → f s = .ok (a, t))
    (hmade : ∀ fi next, decoded sch fi w next = (g fi a, next))
    (hany : ∀ n site fi, readAny P sch (n + 1) site w.type fi = do
      record (.call w.type fi)
      pure (g fi (← protocol f))) : Decodes P sch w := by
  intro site fi n lo s t hv h hn
  rw [htok] at h hn
  obtain ⟨u, hu, rfl⟩ := h
  cases n with
  | zero => simp at hn
  | succ n =>
    rw [hany, hmade]
    exact Returns.record (Returns.protocol (hread s u hu) (Returns.pure _))

theorem makes_of_framed {klass : VALUE} (h : verdictNew sch klass = .framed) :
    Makes sch klass := by
  unfold verdictNew at h
  split at h
  · assumption
  · cases h

theorem all_framed {α : Type} {v : α → Verdict} {xs : List α}
    (h : Verdict.all (xs.map v) = .framed) : ∀ x ∈ xs, v x = .framed := by
  induction xs with
  | nil => simp
  | cons x xs ih =>
    obtain ⟨hx, hxs⟩ := Verdict.seq_eq_framed h
    exact List.forall_mem_cons.mpr ⟨hx, ih hxs⟩

theorem returns_elements {e : FieldInfo} {ws : List WireValue} {n lo : ℕ} {s t : σ}
    (ih : ∀ w ∈ ws, Decodes P sch w) (types : ∀ w ∈ ws, w.type = e.ftype)
    (hv : verdictElems sch e ws = .framed) (h : P.Consumes s (WireValue.elemTokens ws) t)
    (hn : (WireValue.elemTokens ws).length ≤ n) :
    Returns lo s t (times (readAny P sch n .element e.ftype e) ws.length)
      (decodedElems sch e ws lo) := by
  rw [verdictElems_eq] at hv
  rw [WireValue.elemTokens_eq] at h hn
  rw [decodedElems_eq]
  apply returns_times WireValue.tokens (decoded sch e) ws ?_ h
  intro w hw lo s t hc
  have hlen := length_le_flatMap WireValue.tokens hw
  have hread := ih w hw .element e n lo s t (all_framed hv w hw) hc (by omega)
  rwa [types w hw] at hread

theorem returns_entries {k e : FieldInfo} {kt vt : TType} {kvs : List (WireValue × WireValue)}
    {n : ℕ} {s t : σ} (lo : ℕ) (ih : ∀ kv ∈ kvs, Decodes P sch kv.1 ∧ Decodes P sch kv.2)
    (types : ∀ kv ∈ kvs, kv.1.type = kt ∧ kv.2.type = vt)
    (hv : verdictEntries sch k e kvs = .framed) (h : P.Consumes s (WireValue.entryTokens kvs) t)
    (hn : (WireValue.entryTokens kvs).length ≤ n) :
    Returns lo s t (times (do
        record (.header .key kt k)
        let key ← readAny P sch n .key kt k
        record (.header .value vt e)
        let value ← readAny P sch n .value vt e
        pure (key, value)) kvs.length) (decodedEntries sch k e kvs lo) := by
  rw [verdictEntries_eq] at hv
  rw [WireValue.entryTokens_eq] at h hn
  rw [decodedEntries_eq]
  apply returns_times (fun kv : WireValue × WireValue => kv.1.tokens ++ kv.2.tokens)
    (decodedEntry sch k e) kvs ?_ h
  intro kv hkv lo s t hc
  have hlen := length_le_flatMap (fun kv : WireValue × WireValue => kv.1.tokens ++ kv.2.tokens) hkv
  simp only [List.length_append] at hlen
  obtain ⟨hvk, hve⟩ := Verdict.seq_eq_framed (all_framed hv kv hkv)
  rw [TReader.consumes_append] at hc
  obtain ⟨u, hu, ht⟩ := hc
  have hkey := (ih kv hkv).1 .key k n lo s u hvk hu (by omega)
  have hvalue := (ih kv hkv).2 .value e n (decoded sch k kv.1 lo).2 u t hve ht (by omega)
  rw [(types kv hkv).1] at hkey
  rw [(types kv hkv).2] at hvalue
  exact Returns.record (hkey.bind (Returns.record (hvalue.bind (Returns.pure _))))

theorem returns_readFields (hP : P.Framed) (klass : VALUE) (fields : FieldInfoMap)
    (fs : List (Int16 × WireValue)) (wf : ∀ f ∈ fs, f.2.WellFormed)
    (ih : ∀ f ∈ fs, Decodes P sch f.2) (ret : Instance) {n lo : ℕ} {s t : σ}
    (hv : verdictFields sch fields fs = .framed) (h : P.Consumes s (WireValue.bodyTokens fs) t)
    (hn : (WireValue.bodyTokens fs).length ≤ n) :
    Returns lo s t (readFields P sch n klass fields ret)
      ((decodedFields sch fields fs ret lo).1.toValue, (decodedFields sch fields fs ret lo).2) := by
  induction fs generalizing s n lo ret with
  | nil =>
    obtain ⟨u, ⟨fid, hu⟩, rfl⟩ := h
    cases n with
    | zero => simp [WireValue.bodyTokens] at hn
    | succ n =>
      rw [readFields]
      exact Returns.protocol hu (Returns.pure _)
  | cons f fs ihfs =>
    obtain ⟨fid, w⟩ := f
    rw [WireValue.bodyTokens_cons] at h hn
    obtain ⟨u, hu, h⟩ := h
    rw [TReader.consumes_append] at h
    obtain ⟨v, hv', v', hend, h⟩ := h
    simp only [List.length_cons, List.length_append] at hn
    cases n with
    | zero => omega
    | succ n =>
      have hrest : ∀ ret lo, verdictFields sch fields fs = .framed →
          Returns lo v' t (readFields P sch n klass fields ret)
            ((decodedFields sch fields fs ret lo).1.toValue,
              (decodedFields sch fields fs ret lo).2) := fun ret lo hvf =>
        ihfs (fun g hg => wf g (List.mem_cons_of_mem _ hg))
          (fun g hg => ih g (List.mem_cons_of_mem _ hg)) ret hvf h (by omega)
      rw [readFields]
      apply Returns.protocol hu
      simp only [WireValue.type_ne_stop, ↓reduceIte]
      simp only [verdictFields] at hv
      simp only [decodedFields]
      cases hfind : fields.find? fid with
      | none =>
        rw [hfind] at hv
        have hskip := hP.skip w u v (wf (fid, w) (by simp)) hv'
        exact Returns.protocol hskip (Returns.protocol hend (hrest ret lo hv))
      | some fi =>
        rw [hfind] at hv
        dsimp only at hv ⊢
        have hne : ¬ fi.ftype ≠ w.type := by
          intro hne
          rw [if_pos hne] at hv
          cases hv
        rw [if_neg hne] at hv ⊢
        obtain ⟨hvw, hvf⟩ := Verdict.seq_eq_framed hv
        have hwn : w.tokens.length ≤ n := by omega
        have hread := ih (fid, w) (by simp) .field fi n lo u v hvw hv' hwn
        exact hread.bind (Returns.protocol hend (hrest _ _ hvf))

theorem returns_readStruct (hP : P.Framed) {klass : VALUE} {fields : FieldInfoMap}
    (hf : sch.fieldInfoMap klass = some fields) (hmakes : Makes sch klass)
    (fs : List (Int16 × WireValue)) (wf : ∀ f ∈ fs, f.2.WellFormed)
    (ih : ∀ f ∈ fs, Decodes P sch f.2) (lo : ℕ) {n : ℕ} {s t : σ}
    (hv : verdictFields sch fields fs = .framed) (h : P.Consumes s (WireValue.bodyTokens fs) t)
    (hn : (WireValue.bodyTokens fs).length < n) :
    Returns lo s t (readStruct P sch n klass)
      ((decodedFields sch fields fs (created sch klass lo) (lo + 1)).1.toValue,
        (decodedFields sch fields fs (created sch klass lo) (lo + 1)).2) := by
  cases n with
  | zero => omega
  | succ n =>
    rw [readStruct]
    apply (returns_newInstance hf hmakes lo s).bind
    apply returns_findFieldInfoMap hf
    exact returns_readFields hP klass fields fs wf ih _ hv h (by omega)

theorem returns_readUnion {klass : VALUE} {fields : FieldInfoMap}
    (hf : sch.fieldInfoMap klass = some fields) (hmakes : Makes sch klass)
    (fs : List (Int16 × WireValue)) (ih : ∀ f ∈ fs, Decodes P sch f.2) (lo : ℕ) {n : ℕ} {s t : σ}
    (hv : verdictUnion sch fields fs = .framed) (h : P.Consumes s (WireValue.bodyTokens fs) t)
    (hn : (WireValue.bodyTokens fs).length < n) :
    Returns lo s t (readUnion P sch n klass)
      ((decodedUnion sch fields fs (created sch klass lo) (lo + 1)).1.toValue,
        (decodedUnion sch fields fs (created sch klass lo) (lo + 1)).2) := by
  cases n with
  | zero => omega
  | succ n =>
    rw [readUnion]
    apply (returns_newInstance hf hmakes lo s).bind
    apply returns_findFieldInfoMap hf
    cases fs with
    | nil =>
      obtain ⟨u, ⟨fid, hu⟩, rfl⟩ := h
      exact Returns.protocol hu (Returns.pure _)
    | cons f rest =>
      obtain ⟨fid, w⟩ := f
      rw [WireValue.bodyTokens_cons] at h hn
      obtain ⟨u, hu, h⟩ := h
      rw [TReader.consumes_append] at h
      obtain ⟨v, hv', v', hend, h⟩ := h
      simp only [List.length_cons, List.length_append] at hn
      apply Returns.protocol hu
      simp only [WireValue.type_ne_stop, ↓reduceIte]
      simp only [verdictUnion] at hv
      simp only [decodedUnion]
      cases hfind : fields.find? fid with
      | none =>
        rw [hfind] at hv
        cases hv
      | some fi =>
        rw [hfind] at hv
        obtain ⟨hvw, hlast⟩ := Verdict.seq_eq_framed hv
        -- Framed means that no second field follows.
        cases rest with
        | cons g rest => cases hlast
        | nil =>
          obtain ⟨z, ⟨fid', hz⟩, rfl⟩ := h
          apply Returns.record
          have hwn : w.tokens.length ≤ n := by omega
          have hread := ih (fid, w) (by simp) .member fi n (lo + 1) u v hvw hv' hwn
          exact hread.bind (Returns.protocol hend (Returns.protocol hz (Returns.pure _)))

theorem inTurn_same {γ : Type} (items : List γ) (next : ℕ) :
    inTurn (fun (_ : γ) next => ((), next)) items next = (items.map fun _ => (), next) := by
  induction items with
  | nil => rfl
  | cons c items ih => simp only [inTurn, ih, List.map_cons]

theorem returns_skipNType (hP : P.Framed) {et : TType} {ws : List WireValue}
    (types : ∀ w ∈ ws, w.type = et) (elems : ∀ w ∈ ws, w.WellFormed) {lo : ℕ} {s t : σ}
    (h : P.Consumes s (ws.flatMap WireValue.tokens) t) :
    Returns lo s t (skipNType P ws.length et) ((), lo) := by
  have hloop : Returns lo s t (times (protocol (P.skip et)) ws.length) _ :=
    returns_times WireValue.tokens (fun _ next => ((), next)) ws
    (fun w hw lo s t hc => by
      have hskip := hP.skip w s t (elems w hw) hc
      rw [types w hw] at hskip
      exact returns_protocol hskip) h
  rw [inTurn_same] at hloop
  exact hloop.bind (Returns.pure ())

theorem returns_skipNPair (hP : P.Framed) {kt vt : TType} {kvs : List (WireValue × WireValue)}
    (types : ∀ e ∈ kvs, e.1.type = kt ∧ e.2.type = vt) (keys : ∀ e ∈ kvs, e.1.WellFormed)
    (values : ∀ e ∈ kvs, e.2.WellFormed) {lo : ℕ} {s t : σ}
    (h : P.Consumes s (kvs.flatMap fun e => e.1.tokens ++ e.2.tokens) t) :
    Returns lo s t (skipNPair P kvs.length kt vt) ((), lo) := by
  have hloop :
      Returns lo s t (times (do protocol (P.skip kt); protocol (P.skip vt)) kvs.length) _ :=
    returns_times _ (fun _ next => ((), next)) kvs
    (fun e he lo s t hc => by
      rw [TReader.consumes_append] at hc
      obtain ⟨u, hu, ht⟩ := hc
      have hk := hP.skip e.1 s u (keys e he) hu
      have hv := hP.skip e.2 u t (values e he) ht
      rw [(types e he).1] at hk
      rw [(types e he).2] at hv
      exact Returns.protocol (g := fun _ => protocol (P.skip vt)) hk (returns_protocol hv)) h
  rw [inTurn_same] at hloop
  exact hloop.bind (Returns.pure ())

theorem returns_sequence (hP : P.Framed) {fi : FieldInfo} {site : Site} {et : TType}
    {ws : List WireValue} (types : ∀ w ∈ ws, w.type = et) (elems : ∀ w ∈ ws, w.WellFormed)
    (ih : ∀ w ∈ ws, Decodes P sch w) {n lo : ℕ} (hn : (WireValue.elemTokens ws).length ≤ n)
    {s t : σ} (h : P.Consumes s (WireValue.elemTokens ws) t)
    (hv : (match fi.elementType with
      | none => .framed
      | some e => if et ≠ e.ftype then .framed else verdictElems sch e ws) = Verdict.framed)
    {f : List Value → Reader σ Value} {g : List Value → Value}
    (hf : ∀ vs hi, Returns hi t t (f vs) (g vs, hi)) :
    Returns lo s t
      (match fi.elementType with
      | none => do
        record (.skip site et fi)
        skipNType P ws.length et
        pure .nil
      | some e =>
        if et ≠ e.ftype then do
          record (.skip site et fi)
          skipNType P ws.length et
          pure .nil
        else do
          let vs ← times (readAny P sch n .element et e) ws.length
          f vs)
      (match fi.elementType with
      | none => (.nil, lo)
      | some e =>
        if et ≠ e.ftype then (.nil, lo)
        else (g (decodedElems sch e ws lo).1, (decodedElems sch e ws lo).2)) := by
  have hskip : Returns lo s t (skipNType P ws.length et) ((), lo) := by
    rw [WireValue.elemTokens_eq] at h
    exact returns_skipNType hP types elems h
  cases he : fi.elementType with
  | none => exact Returns.record (hskip.bind (Returns.pure _))
  | some e =>
    rw [he] at hv
    dsimp only at hv ⊢
    by_cases hne : et ≠ e.ftype
    · rw [if_pos hne, if_pos hne]
      exact Returns.record (hskip.bind (Returns.pure _))
    · rw [if_neg hne] at hv ⊢
      rw [if_neg hne]
      obtain rfl : et = e.ftype := not_not.mp hne
      exact (returns_elements ih types hv h hn).bind (hf _ _)

theorem decodes_list (hP : P.Framed) {et : TType} {ws : List WireValue}
    (size : ws.length < 2 ^ 31) (types : ∀ w ∈ ws, w.type = et) (elems : ∀ w ∈ ws, w.WellFormed)
    (ih : ∀ w ∈ ws, Decodes P sch w) : Decodes P sch (.list et ws) := by
  intro site fi n lo s t hv h hn
  obtain ⟨u, hu, h⟩ := h
  rw [TReader.consumes_append] at h
  obtain ⟨v, hv', v', hend, rfl⟩ := h
  obtain rfl : v = v' := by simpa [TReader.Reads, hP.listEnd] using hend
  simp only [WireValue.tokens, List.length_cons, List.length_append] at hn
  cases n with
  | zero => omega
  | succ n =>
    have hbody : (WireValue.elemTokens ws).length ≤ n := by omega
    unfold readAny
    apply Returns.record
    apply Returns.protocol hu
    simp only [ofNat_toNat_lt size]
    exact returns_sequence hP types elems ih hbody hv' hv (g := .ary)
      fun vs hi => Returns.protocol (hP.listEnd v) (Returns.pure _)

theorem decodes_set (hP : P.Framed) {et : TType} {ws : List WireValue}
    (size : ws.length < 2 ^ 31) (types : ∀ w ∈ ws, w.type = et) (elems : ∀ w ∈ ws, w.WellFormed)
    (ih : ∀ w ∈ ws, Decodes P sch w) : Decodes P sch (.set et ws) := by
  intro site fi n lo s t hv h hn
  obtain ⟨u, hu, h⟩ := h
  rw [TReader.consumes_append] at h
  obtain ⟨v, hv', v', hend, rfl⟩ := h
  obtain rfl : v = v' := by simpa [TReader.Reads, hP.listEnd] using hend
  simp only [WireValue.tokens, List.length_cons, List.length_append] at hn
  cases n with
  | zero => omega
  | succ n =>
    have hbody : (WireValue.elemTokens ws).length ≤ n := by omega
    unfold readAny
    apply Returns.record
    apply Returns.protocol ((hP.setBegin s).trans hu)
    simp only [ofNat_toNat_lt size]
    have hend' := (hP.setEnd v).trans (hP.listEnd v)
    exact returns_sequence hP types elems ih hbody hv' hv
      (g := fun vs => .set (setNew sch.isUnion vs))
      fun vs hi => Returns.protocol hend' (Returns.pure _)

theorem announced_types {kt vt kt' vt' : TType} {kvs : List (WireValue × WireValue)}
    (size : kvs.length < 2 ^ 31)
    (hne : UInt32.ofNat kvs.length ≠ 0 → kt' = kt ∧ vt' = vt)
    (types : ∀ e ∈ kvs, e.1.type = kt ∧ e.2.type = vt) :
    ∀ e ∈ kvs, e.1.type = kt' ∧ e.2.type = vt' := by
  intro e he
  have hsize : UInt32.ofNat kvs.length ≠ 0 := by
    intro h0
    have h1 := ofNat_toNat_lt size
    rw [h0] at h1
    simp [List.eq_nil_of_length_eq_zero h1.symm] at he
  rw [(hne hsize).1, (hne hsize).2]
  exact types e he

theorem decodes_map (hP : P.Framed) {kt vt : TType} {kvs : List (WireValue × WireValue)}
    (size : kvs.length < 2 ^ 31) (types : ∀ e ∈ kvs, e.1.type = kt ∧ e.2.type = vt)
    (keys : ∀ e ∈ kvs, e.1.WellFormed) (values : ∀ e ∈ kvs, e.2.WellFormed)
    (ih : ∀ e ∈ kvs, Decodes P sch e.1 ∧ Decodes P sch e.2) : Decodes P sch (.map kt vt kvs) := by
  intro site fi n lo s t hv h hn
  obtain ⟨u, ⟨kt', vt', hu, hne⟩, h⟩ := h
  rw [TReader.consumes_append] at h
  obtain ⟨v, hv', v', hend, rfl⟩ := h
  obtain rfl : v = v' := by simpa [TReader.Reads, hP.mapEnd] using hend
  simp only [WireValue.tokens, List.length_cons, List.length_append] at hn
  have types' := announced_types size hne types
  have hskip : Returns lo u v (skipNPair P kvs.length kt' vt') ((), lo) := by
    rw [WireValue.entryTokens_eq] at hv'
    exact returns_skipNPair hP types' keys values hv'
  cases n with
  | zero => omega
  | succ n =>
    have hbody : (WireValue.entryTokens kvs).length ≤ n := by omega
    unfold readAny
    apply Returns.record
    apply Returns.protocol hu
    simp only [ofNat_toNat_lt size, decoded]
    simp only [verdict] at hv
    cases hk : fi.keyType with
    | none => exact Returns.record (hskip.bind (Returns.pure Value.nil))
    | some k =>
      cases he : fi.elementType with
      | none => exact Returns.record (hskip.bind (Returns.pure Value.nil))
      | some e =>
        rw [hk, he] at hv
        have hloop := returns_entries lo ih types' hv hv' hbody
        exact hloop.bind (Returns.protocol (hP.mapEnd v) (Returns.pure _))

theorem decodes_struct (hP : P.Framed) {fs : List (Int16 × WireValue)}
    (fields : ∀ f ∈ fs, f.2.WellFormed) (ih : ∀ f ∈ fs, Decodes P sch f.2) :
    Decodes P sch (.struct fs) := by
  intro site fi n lo s t hv h hn
  rw [WireValue.tokens_struct] at h hn
  obtain ⟨u, hu, h⟩ := h
  rw [TReader.consumes_append] at h
  obtain ⟨v, hv', v', hend, rfl⟩ := h
  simp only [List.length_cons, List.length_append, List.length_nil] at hn
  cases n with
  | zero => omega
  | succ n =>
    have hbody : (WireValue.bodyTokens fs).length < n := by omega
    unfold readAny
    apply Returns.record
    apply Returns.protocol hu
    simp only [verdict] at hv
    simp only [decoded]
    cases hf : sch.fieldInfoMap fi.klass with
    | none =>
      rw [hf] at hv
      cases hv
    | some table =>
      rw [hf] at hv
      dsimp only at hv ⊢
      obtain ⟨hnew, hv⟩ := Verdict.seq_eq_framed hv
      have hmakes := makes_of_framed hnew
      cases hun : sch.isUnion fi.klass with
      | true =>
        rw [hun, if_pos rfl] at hv
        have hread := returns_readUnion hf hmakes fs ih lo hv hv' hbody
        exact hread.bind (Returns.protocol hend (Returns.pure _))
      | false =>
        rw [hun, if_neg (by simp)] at hv
        have hread := returns_readStruct hP hf hmakes fs fields ih lo hv hv' hbody
        exact hread.bind (Returns.protocol hend (Returns.pure _))

theorem decodes (hP : P.Framed) (w : WireValue) (hw : w.WellFormed) : Decodes P sch w := by
  induction w using WireValue.induct with
  | bool b => exact decodes_scalar rfl (fun _ _ h => h) (fun _ _ => rfl) fun _ _ _ => rfl
  | byte n => exact decodes_scalar rfl (fun _ _ h => h) (fun _ _ => rfl) fun _ _ _ => rfl
  | i16 n => exact decodes_scalar rfl (fun _ _ h => h) (fun _ _ => rfl) fun _ _ _ => rfl
  | i32 n => exact decodes_scalar rfl (fun _ _ h => h) (fun _ _ => rfl) fun _ _ _ => rfl
  | i64 n => exact decodes_scalar rfl (fun _ _ h => h) (fun _ _ => rfl) fun _ _ _ => rfl
  | double b => exact decodes_scalar rfl (fun _ _ h => h) (fun _ _ => rfl) fun _ _ _ => rfl
  | string isBinary b =>
    cases isBinary with
    | true =>
      exact decodes_scalar rfl (fun s _ h => (hP.binary s).symm.trans h) (fun _ _ => rfl)
        (readAny_string hP)
    | false => exact decodes_scalar rfl (fun _ _ h => h) (fun _ _ => rfl) (readAny_string hP)
  | list et ws ih =>
    cases hw with
    | list _ _ size wire types elems =>
      exact decodes_list hP size types elems fun w hw => ih w hw (elems w hw)
  | set et ws ih =>
    cases hw with
    | set _ _ size wire types elems =>
      exact decodes_set hP size types elems fun w hw => ih w hw (elems w hw)
  | map kt vt kvs ih =>
    cases hw with
    | map _ _ _ size keyWire valueWire types keys values =>
      exact decodes_map hP size types keys values fun e he =>
        ⟨(ih e he).1 (keys e he), (ih e he).2 (values e he)⟩
  | struct fs ih =>
    cases hw with
    | struct _ fields => exact decodes_struct hP fields fun f hf => ih f hf (fields f hf)

/-- The whole object that a run of `deserialize` makes of a struct or a union. -/
def decodedObject (sch : Schema) (klass : VALUE) (fs : List (Int16 × WireValue)) : Value :=
  (decoded sch (classInfo klass) (.struct fs) 0).1

theorem returns_deserialize (hP : P.Framed) {klass : VALUE} (hk : sch.Cached klass)
    {fs : List (Int16 × WireValue)} (wf : ∀ f ∈ fs, f.2.WellFormed)
    (hv : verdict sch (classInfo klass) (.struct fs) = .framed) {n : ℕ} {s t : σ}
    (h : P.Consumes s (WireValue.struct fs).tokens t) (hn : (WireValue.bodyTokens fs).length < n) :
    Returns 0 s t (if sch.isUnion klass then serializerReadUnion P sch n klass
      else serializerReadStruct P sch n klass) (decoded sch (classInfo klass) (.struct fs) 0) := by
  obtain ⟨fields, hf⟩ := Option.isSome_iff_exists.mp hk
  have ih : ∀ f ∈ fs, Decodes P sch f.2 := fun f hm => decodes hP f.2 (wf f hm)
  rw [WireValue.tokens_struct] at h
  obtain ⟨u, hu, h⟩ := h
  rw [TReader.consumes_append] at h
  obtain ⟨v, hv', v', hend, rfl⟩ := h
  have hf' : sch.fieldInfoMap (classInfo klass).klass = some fields := hf
  simp only [verdict, hf'] at hv
  simp only [decoded, hf']
  obtain ⟨hnew, hv⟩ := Verdict.seq_eq_framed hv
  have hmakes : Makes sch klass := makes_of_framed hnew
  have hklass : sch.isUnion (classInfo klass).klass = sch.isUnion klass := rfl
  rw [hklass] at hv ⊢
  cases hun : sch.isUnion klass with
  | true =>
    rw [hun, if_pos rfl] at hv
    have hread := returns_readUnion hf hmakes fs ih 0 hv hv' hn
    exact Returns.protocol hu (hread.bind (Returns.protocol hend (Returns.pure _)))
  | false =>
    rw [hun, if_neg (by simp)] at hv
    have hread := returns_readStruct hP hf hmakes fs wf ih 0 hv hv' hn
    exact Returns.protocol hu (hread.bind (Returns.protocol hend (Returns.pure _)))

theorem outcome_deserialize (hP : P.Framed) {klass : VALUE} (hk : sch.Cached klass)
    {fs : List (Int16 × WireValue)} (wf : ∀ f ∈ fs, f.2.WellFormed)
    (hv : verdict sch (classInfo klass) (.struct fs) = .raises) {n : ℕ} {s t : σ}
    (h : P.Consumes s (WireValue.struct fs).tokens t) (hn : (WireValue.bodyTokens fs).length < n) :
    Outcome .raises s t (if sch.isUnion klass then serializerReadUnion P sch n klass
      else serializerReadStruct P sch n klass) := by
  obtain ⟨fields, hf⟩ := Option.isSome_iff_exists.mp hk
  rw [WireValue.tokens_struct] at h
  obtain ⟨u, hu, h⟩ := h
  rw [TReader.consumes_append] at h
  obtain ⟨v, hv', v', hend, rfl⟩ := h
  have hf' : sch.fieldInfoMap (classInfo klass).klass = some fields := hf
  have hklass : sch.isUnion (classInfo klass).klass = sch.isUnion klass := rfl
  simp only [verdict, hf', hklass] at hv
  change (verdictNew sch klass).seq _ = .raises at hv
  have ih : ∀ f ∈ fs, Frames P sch f.2 := fun f hm => frames hP f.2 (wf f hm)
  cases hun : sch.isUnion klass with
  | true =>
    rw [hun, if_pos rfl] at hv
    have hread := outcome_readUnion hf fs ih hv' hn
    rw [hv] at hread
    exact Outcome.protocol hu (hread.finish fun ret => Outcome.protocol hend (Outcome.pure _ _))
  | false =>
    rw [hun, if_neg (by simp)] at hv
    have hread := outcome_readStruct hP hf fs wf ih hv' hn
    rw [hv] at hread
    exact Outcome.protocol hu (hread.finish fun ret => Outcome.protocol hend (Outcome.pure _ _))

end Readers

section Deserialize
variable {σ : Type} (P : TProtocol σ) {sch : Schema} {klass : VALUE} {fs : List (Int16 × WireValue)}

theorem deserialize_framed (hP : P.Inverse) (hframed : P.Framed) (hk : sch.Cached klass)
    (wf : ∀ f ∈ fs, f.2.WellFormed) (hv : verdict sch (classInfo klass) (.struct fs) = .framed) :
    ∃ N, ∀ n, N ≤ n → ∃ st, deserialize P sch n klass (P.encode (WireValue.struct fs).tokens) =
      .ok (decodedObject sch klass fs) st := by
  obtain ⟨t, ht⟩ := hP.decode_encode (.struct fs) (.struct fs wf) rfl
  refine ⟨(WireValue.bodyTokens fs).length + 1, fun n hn => ?_⟩
  have hspec := returns_deserialize hframed hk wf hv ht (by omega : _ < n)
    { input := P.openBuffer (P.encode (WireValue.struct fs).tokens) } rfl rfl
  unfold deserialize
  unfold Spec at hspec
  split at hspec
  · rename_i a st hrun
    have heq := (Prod.mk.inj hspec.2.2.2).1
    exact ⟨st, by rw [hrun, heq]; rfl⟩
  · exact absurd trivial hspec.1

theorem deserialize_raises (hP : P.Inverse) (hframed : P.Framed) (hk : sch.Cached klass)
    (wf : ∀ f ∈ fs, f.2.WellFormed) (hv : verdict sch (classInfo klass) (.struct fs) = .raises) :
    ∃ N, ∀ n, N ≤ n → ∃ e st, deserialize P sch n klass (P.encode (WireValue.struct fs).tokens) =
      .error e st ∧ e.isRaise = true := by
  obtain ⟨t, ht⟩ := hP.decode_encode (.struct fs) (.struct fs wf) rfl
  refine ⟨(WireValue.bodyTokens fs).length + 1, fun n hn => ?_⟩
  have hspec := outcome_deserialize hframed hk wf hv ht (by omega : _ < n)
    { input := P.openBuffer (P.encode (WireValue.struct fs).tokens) } rfl
  unfold deserialize
  change Spec _ _ (fun _ _ => False) (fun e _ => Err.isRaise e = true) at hspec
  unfold Spec at hspec
  split at hspec
  · exact hspec.elim
  · rename_i e st hrun
    exact ⟨e, st, hrun, hspec⟩

end Deserialize

open BinaryProtocol Loading

def ssWire : List (Int16 × WireValue) :=
  [(1, .i32 7), (9, .list .BYTE []), (8, .struct [(1, .i32 8)])]

theorem ssWire_wellFormed : ∀ f ∈ ssWire, f.2.WellFormed := by
  have hunion : (WireValue.struct [(1, .i32 8)]).WellFormed :=
    .struct _ (by simpa using WireValue.WellFormed.i32 8)
  have hlist : (WireValue.list .BYTE []).WellFormed :=
    .list _ _ (by decide) (by decide) (by simp) (by simp)
  simpa [ssWire] using ⟨WireValue.WellFormed.i32 7, hlist, hunion⟩

end Sparsam.DecodedValue
