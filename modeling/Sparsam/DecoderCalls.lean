import Sparsam.BinaryProtocol
import Sparsam.Loading
import Sparsam.SerializerRead

set_option autoImplicit false

/-!
# The calls of `readAny`

A call with a type other than the declared one comes from the member of a union
or from an entry of a map, the two places that do not compare the types. Where
these agree no class but a cached one is instantiated.
-/
namespace Sparsam.DecoderCalls
open WireProtocol RubyRuntime FieldInfoCache ExceptionState ObjectMethods
open SerializerWrite SerializerRead

section Generated
variable {cached : VALUE → Prop} {fi e k : FieldInfo}

theorem generated_element (h : fi.Generated cached) (he : fi.elementType = some e) :
    e.Generated cached := by
  cases h with
  | scalar _ _ _ element => simp [he] at element
  | sequence _ _ _ _ element _ elem =>
    rw [he, Option.some.injEq] at element
    exact element ▸ elem
  | map _ _ _ _ _ element _ _ elem =>
    rw [he, Option.some.injEq] at element
    exact element ▸ elem
  | struct _ _ _ element => simp [he] at element

theorem generated_key (h : fi.Generated cached) (hk : fi.keyType = some k) :
    k.Generated cached := by
  cases h with
  | scalar _ _ _ _ key => simp [hk] at key
  | sequence _ _ _ _ _ key => simp [hk] at key
  | map _ _ _ _ _ _ key keyGenerated _ =>
    rw [hk, Option.some.injEq] at key
    exact key ▸ keyGenerated
  | struct _ _ _ _ key => simp [hk] at key

theorem generated_klass (h : fi.Generated cached) (ht : fi.ftype = .STRUCT) : cached fi.klass := by
  cases h with
  | scalar _ type => simp [ht] at type
  | sequence _ _ type => simp [ht] at type
  | map _ _ _ type => simp [ht] at type
  | struct _ _ klass => exact klass

theorem generated_isWire (h : fi.Generated cached) : fi.ftype.isWire = true := by
  cases h with
  | scalar _ type =>
    simp only [List.mem_cons, List.not_mem_nil, or_false] at type
    rcases type with h | h | h | h | h | h | h <;> rw [h] <;> rfl
  | sequence _ _ type =>
    simp only [List.mem_cons, List.not_mem_nil, or_false] at type
    rcases type with h | h <;> rw [h] <;> rfl
  | map _ _ _ type => rw [type]; rfl
  | struct _ type => rw [type]; rfl

theorem exists_element (h : fi.Generated cached)
    (ht : fi.ftype = .LIST ∨ fi.ftype = .SET ∨ fi.ftype = .MAP) :
    ∃ e, fi.elementType = some e := by
  cases h with
  | scalar _ type => rcases ht with ht | ht | ht <;> simp [ht] at type
  | sequence _ e _ _ element => exact ⟨e, element⟩
  | map _ _ e _ _ element => exact ⟨e, element⟩
  | struct _ type => rcases ht with ht | ht | ht <;> simp [ht] at type

theorem exists_key (h : fi.Generated cached) (ht : fi.ftype = .MAP) :
    ∃ k, fi.keyType = some k := by
  cases h with
  | scalar _ type => simp [ht] at type
  | sequence _ _ type => simp [ht] at type
  | map _ k _ _ _ _ key => exact ⟨k, key⟩
  | struct _ type => simp [ht] at type

end Generated

/-- Every call so far has a generated definition, each mismatched one has its
    header, and each header has its call, the pending one excepted. -/
structure Traced (sch : Schema) (pending : Option (TType × FieldInfo)) (tr : List Event) :
    Prop where
  generated : ∀ ttype fi, .call ttype fi ∈ tr → fi.Generated sch.Cached
  called : ∀ ttype fi, .call ttype fi ∈ tr → fi.ftype ≠ ttype →
    ∃ site, .header site ttype fi ∈ tr
  header : ∀ site ttype fi, .header site ttype fi ∈ tr →
    .call ttype fi ∈ tr ∨ pending = some (ttype, fi)

def Mistyped (tr : List Event) : Prop := ∃ ttype fi, .call ttype fi ∈ tr ∧ fi.ftype ≠ ttype

/-- The class is cached, or a mismatched call is to blame. -/
def Known (sch : Schema) (klass : VALUE) (tr : List Event) : Prop := sch.Cached klass ∨ Mistyped tr

namespace Traced
variable {sch : Schema} {tr : List Event}

theorem nil : Traced sch none [] := ⟨by simp, by simp, by simp⟩

theorem record_header (h : Traced sch none tr) (site : Site) (ttype : TType) (fi : FieldInfo) :
    Traced sch (some (ttype, fi)) (tr ++ [.header site ttype fi]) := by
  refine ⟨?_, ?_, ?_⟩
  · intro t f hc
    exact h.generated t f (by simpa using hc)
  · intro t f hc hne
    obtain ⟨s, hs⟩ := h.called t f (by simpa using hc) hne
    exact ⟨s, List.mem_append_left _ hs⟩
  · intro s t f hh
    simp only [List.mem_append, List.mem_singleton, Event.header.injEq] at hh
    rcases hh with hh | ⟨-, rfl, rfl⟩
    · have hc := h.header s t f hh
      simp only [reduceCtorEq, or_false] at hc
      exact .inl (List.mem_append_left _ hc)
    · exact .inr rfl

theorem record_call {p : Option (TType × FieldInfo)} {ttype : TType} {fi : FieldInfo}
    (h : Traced sch p tr) (hp : p = none ∨ p = some (ttype, fi)) (hg : fi.Generated sch.Cached)
    (hm : fi.ftype = ttype ∨ ∃ site, .header site ttype fi ∈ tr) :
    Traced sch none (tr ++ [.call ttype fi]) := by
  refine ⟨?_, ?_, ?_⟩
  · intro t f hc
    simp only [List.mem_append, List.mem_singleton, Event.call.injEq] at hc
    rcases hc with hc | ⟨rfl, rfl⟩
    · exact h.generated t f hc
    · exact hg
  · intro t f hc hne
    simp only [List.mem_append, List.mem_singleton, Event.call.injEq] at hc
    rcases hc with hc | ⟨rfl, rfl⟩
    · obtain ⟨s, hs⟩ := h.called t f hc hne
      exact ⟨s, List.mem_append_left _ hs⟩
    · obtain ⟨s, hs⟩ := hm.resolve_left hne
      exact ⟨s, List.mem_append_left _ hs⟩
  · intro s t f hh
    have hh : .header s t f ∈ tr := by simpa using hh
    rcases h.header s t f hh with hc | hc
    · exact .inl (List.mem_append_left _ hc)
    · rcases hp with rfl | rfl
      · simp at hc
      · simp only [Option.some.injEq, Prod.mk.injEq] at hc
        obtain ⟨rfl, rfl⟩ := hc
        exact .inl (by simp)

theorem record_other {e : Event} (h : Traced sch none tr) (hc : ∀ ttype fi, e ≠ .call ttype fi)
    (hh : ∀ site ttype fi, e ≠ .header site ttype fi) : Traced sch none (tr ++ [e]) := by
  refine ⟨?_, ?_, ?_⟩
  · intro t f hm
    simp only [List.mem_append, List.mem_singleton, Ne.symm (hc t f), or_false] at hm
    exact h.generated t f hm
  · intro t f hm hne
    simp only [List.mem_append, List.mem_singleton, Ne.symm (hc t f), or_false] at hm
    obtain ⟨s, hs⟩ := h.called t f hm hne
    exact ⟨s, List.mem_append_left _ hs⟩
  · intro s t f hm
    simp only [List.mem_append, List.mem_singleton, Ne.symm (hh s t f), or_false] at hm
    exact (h.header s t f hm).imp_left (List.mem_append_left _)

end Traced

section Readers
variable {σ : Type} (P : TProtocol σ) (sch : Schema)

def Blamed (e : Err) (st : RState σ) : Prop :=
  Traced sch none st.trace ∧ (e = .crash → Mistyped st.trace)

def Safe {α : Type} (x : Reader σ α) : Prop :=
  Keeps (fun st : RState σ => Traced sch none st.trace) (Blamed sch) x

variable {sch}

theorem safe_protocol {α : Type} (f : σ → Except TException (α × σ)) : Safe sch (protocol f) :=
  fun _ hs => spec_protocol (fun _ _ _ => hs) fun _ => ⟨hs, by simp⟩

theorem safe_throw {α : Type} {e : Err} (h : e ≠ .crash) : Safe sch (throw e : Reader σ α) :=
  Keeps.throw fun _ hs => ⟨hs, fun he => absurd he h⟩

theorem safe_skip {site : Site} {ttype : TType} {fi : FieldInfo} :
    Safe sch (record (.skip site ttype fi) : Reader σ Unit) :=
  fun _ hs => spec_record (hs.record_other (by simp) (by simp))

theorem safe_skipNType (n : ℕ) (ttype : TType) : Safe sch (skipNType P n ttype) :=
  Keeps.bind (Keeps.times (safe_protocol _) n) fun _ => Keeps.pure _

theorem safe_skipNPair (n : ℕ) (a b : TType) : Safe sch (skipNPair P n a b) :=
  Keeps.bind (Keeps.times (Keeps.bind (safe_protocol _) fun _ => safe_protocol _) n)
    fun _ => Keeps.pure _

theorem spec_newInstance {klass : VALUE} {st : RState σ} (h : Traced sch none st.trace)
    (hk : Known sch klass st.trace) :
    Spec (newInstance sch klass) st (fun _ t => Traced sch none t.trace ∧ sch.Cached klass)
      (Blamed sch) := by
  cases hf : sch.fieldInfoMap klass with
  | none =>
    rw [newInstance_none sch hf]
    refine Spec.throw ⟨h, fun _ => hk.resolve_left ?_⟩
    simp [Schema.Cached, hf]
  | some fields =>
    have hr := h.record_other (e := .instance klass) (by simp) (by simp)
    by_cases hmakes : Makes sch klass
    · rw [newInstance_makes sch hf hmakes]
      exact Spec.bind (spec_record (Spec.bind (spec_newOid
        (Spec.pure ⟨hr, by simp [Schema.Cached, hf]⟩))))
    · obtain ⟨e, hraise, hnew⟩ := newInstance_raises sch hf hmakes
      rw [hnew]
      refine Spec.bind (spec_record (Spec.bind (spec_newOid (Spec.throw ⟨hr, ?_⟩))))
      rintro rfl
      cases hraise

theorem spec_findFieldInfoMap {klass : VALUE} {st : RState σ} (h : Traced sch none st.trace)
    (hk : sch.Cached klass) :
    Spec (findFieldInfoMap sch klass) st
      (fun fields t => Traced sch none t.trace ∧ sch.fieldInfoMap klass = some fields)
      (Blamed sch) := by
  unfold findFieldInfoMap
  cases hf : sch.fieldInfoMap klass with
  | none => simp [Schema.Cached, hf] at hk
  | some fields => exact Spec.pure ⟨h, rfl⟩

theorem generated_find {klass : VALUE} {fields : FieldInfoMap} {fid : Int16} {fi : FieldInfo}
    (h : sch.fieldInfoMap klass = some fields) (hf : fields.find? fid = some fi) :
    fi.Generated sch.Cached :=
  sch.generated klass fields h (fid, fi) ((fields.find?_eq_some_iff fid fi).mp hf)

variable (sch)

/-- What a caller of `readAny` owes: the types agree, or it has recorded that it
    did not compare them. -/
def AnySafe (n : ℕ) : Prop :=
  ∀ (site : Site) (ttype : TType) (fi : FieldInfo) (p : Option (TType × FieldInfo)) (st : RState σ),
    fi.Generated sch.Cached → Traced sch p st.trace → (p = none ∨ p = some (ttype, fi)) →
    (fi.ftype = ttype ∨ ∃ s, .header s ttype fi ∈ st.trace) →
    Spec (readAny P sch n site ttype fi) st (fun _ t => Traced sch none t.trace) (Blamed sch)

def StructSafe (n : ℕ) (read : ℕ → VALUE → Reader σ Value) : Prop :=
  ∀ (klass : VALUE) (st : RState σ), Traced sch none st.trace → Known sch klass st.trace →
    Spec (read n klass) st (fun _ t => Traced sch none t.trace) (Blamed sch)

def FieldsSafe (n : ℕ) : Prop :=
  ∀ (klass : VALUE) (fields : FieldInfoMap) (ret : Instance), sch.fieldInfoMap klass = some fields →
    Safe sch (readFields P sch n klass fields ret)

variable {P sch} {n : ℕ}

theorem AnySafe.checked (h : AnySafe P sch n) (site : Site) {ttype : TType}
    {fi : FieldInfo} (hg : fi.Generated sch.Cached) (ht : fi.ftype = ttype) :
    Safe sch (readAny P sch n site ttype fi) :=
  fun st hs => h site ttype fi none st hg hs (.inl rfl) (.inl ht)

theorem AnySafe.unchecked {α : Type} (h : AnySafe P sch n) (site : Site) {ttype : TType}
    {fi : FieldInfo} (hg : fi.Generated sch.Cached) {f : Value → Reader σ α}
    (hf : ∀ v, Safe sch (f v)) :
    Safe sch (do
      record (.header site ttype fi)
      let v ← readAny P sch n site ttype fi
      f v) := by
  intro st hs
  refine Spec.bind (spec_record ?_)
  refine (h site ttype fi (some (ttype, fi)) _ hg (hs.record_header site ttype fi) (.inr rfl)
    (.inr ⟨site, by simp⟩)).seq fun v t ht => hf v t ht

theorem fieldsSafe_succ (hany : AnySafe P sch n) (hfields : FieldsSafe P sch n) :
    FieldsSafe P sch (n + 1) := by
  intro klass fields ret hk
  rw [readFields]
  refine Keeps.bind (safe_protocol _) fun header => ?_
  obtain ⟨ftype, fid⟩ := header
  dsimp only
  split_ifs with hstop
  · exact Keeps.pure _
  · cases hf : fields.find? fid with
    | none =>
      exact Keeps.bind (safe_protocol _) fun _ => Keeps.bind (safe_protocol _) fun _ =>
        hfields klass fields ret hk
    | some fi =>
      dsimp only
      split_ifs with hne
      · exact safe_throw (by simp)
      · have ht : fi.ftype = ftype := not_not.mp hne
        exact Keeps.bind (hany.checked .field (generated_find hk hf) ht) fun v =>
          Keeps.bind (safe_protocol _) fun _ => hfields klass fields _ hk

theorem structSafe_succ (hfields : FieldsSafe P sch n) :
    StructSafe sch (n + 1) (readStruct P sch) := by
  intro klass st hs hk
  rw [readStruct]
  refine (spec_newInstance hs hk).seq fun ret t ht => ?_
  refine (spec_findFieldInfoMap ht.1 ht.2).seq fun fields u hu => ?_
  exact hfields klass fields ret hu.2 u hu.1

theorem unionSafe_succ (hany : AnySafe P sch n) :
    StructSafe sch (n + 1) (readUnion P sch) := by
  intro klass st hs hk
  rw [readUnion]
  refine (spec_newInstance hs hk).seq fun ret t ht => ?_
  refine (spec_findFieldInfoMap ht.1 ht.2).seq fun fields u hu => ?_
  obtain ⟨hu, hf⟩ := hu
  refine (safe_protocol _ u hu).seq fun header w hw => ?_
  obtain ⟨ftype, fid⟩ := header
  dsimp only
  split_ifs with hstop
  · exact Spec.pure hw
  · cases hfind : fields.find? fid with
    | none =>
      exact Keeps.bind (safe_protocol _) (fun _ => Keeps.bind (safe_protocol _) fun _ =>
        Keeps.pure _) w hw
    | some fi =>
      refine hany.unchecked .member (generated_find hf hfind) (fun v => ?_) w hw
      refine Keeps.bind (safe_protocol _) fun _ => Keeps.bind (safe_protocol _) fun header' => ?_
      obtain ⟨ftype', fid'⟩ := header'
      dsimp only
      split_ifs with hend hnil
      · exact safe_throw (by simp)
      · exact Keeps.pure _
      · exact Keeps.pure _

theorem safe_elements (hany : AnySafe P sch n) {fi : FieldInfo}
    (hg : fi.Generated sch.Cached) (site : Site) (elementType : TType) (size : ℕ)
    {f : List Value → Reader σ Value} (hf : ∀ vs, Safe sch (f vs)) :
    Safe sch (match fi.elementType with
      | none => do
        record (.skip site elementType fi)
        skipNType P size elementType
        pure .nil
      | some e =>
        if elementType ≠ e.ftype then do
          record (.skip site elementType fi)
          skipNType P size elementType
          pure .nil
        else do
          let vs ← times (readAny P sch n .element elementType e) size
          f vs) := by
  cases he : fi.elementType with
  | none =>
    exact Keeps.bind safe_skip fun _ => Keeps.bind (safe_skipNType P _ _) fun _ => Keeps.pure _
  | some e =>
    dsimp only
    split_ifs with hne
    · exact Keeps.bind safe_skip fun _ => Keeps.bind (safe_skipNType P _ _) fun _ => Keeps.pure _
    · have ht : e.ftype = elementType := (not_not.mp hne).symm
      exact Keeps.bind (Keeps.times (hany.checked .element (generated_element hg he) ht) _) hf

theorem anySafe_succ (hany : AnySafe P sch n)
    (hstruct : StructSafe sch n (readStruct P sch))
    (hunion : StructSafe sch n (readUnion P sch)) : AnySafe P sch (n + 1) := by
  intro site ttype fi p st hg hp hpend hm
  have hcall := hp.record_call hpend hg hm
  unfold readAny
  refine Spec.bind (spec_record ?_)
  have after : ∀ {x : Reader σ Value}, Safe sch x →
      Spec x { st with trace := st.trace ++ [.call ttype fi] }
        (fun _ t => Traced sch none t.trace) (Blamed sch) := fun h => h _ hcall
  have scalar : ∀ {α : Type} (f : σ → Except TException (α × σ)) (g : α → Value),
      Safe sch (do pure (g (← protocol f))) := fun f g =>
    Keeps.bind (safe_protocol f) fun _ => Keeps.pure _
  cases ttype with
  | I16 => exact after (scalar P.readI16 (fun n => .int n.toInt))
  | I32 => exact after (scalar P.readI32 (fun n => .int n.toInt))
  | I64 => exact after (scalar P.readI64 (fun n => .int n.toInt))
  | BOOL => exact after (scalar P.readBool .bool)
  | DOUBLE => exact after (scalar P.readDouble .float)
  | BYTE => exact after (scalar P.readByte (fun n => .int n.toInt))
  | STRING =>
    dsimp only
    split
    · exact after (scalar P.readBinary (.str .binary))
    · exact after (scalar P.readString (.str .utf8))
  | LIST =>
    refine after (Keeps.bind (safe_protocol _) fun header => ?_)
    exact safe_elements hany hg site header.1 _ fun vs =>
      Keeps.bind (safe_protocol _) fun _ => Keeps.pure _
  | SET =>
    refine after (Keeps.bind (safe_protocol _) fun header => ?_)
    exact safe_elements hany hg site header.1 _ fun vs =>
      Keeps.bind (safe_protocol _) fun _ => Keeps.pure _
  | MAP =>
    refine after (Keeps.bind (safe_protocol _) fun header => ?_)
    obtain ⟨keyType, valueType, size⟩ := header
    dsimp only
    cases hk : fi.keyType with
    | none =>
      exact Keeps.bind safe_skip fun _ => Keeps.bind (safe_skipNPair P _ _ _) fun _ => Keeps.pure _
    | some k =>
      cases he : fi.elementType with
      | none =>
        exact Keeps.bind safe_skip fun _ => Keeps.bind (safe_skipNPair P _ _ _) fun _ =>
          Keeps.pure _
      | some e =>
        refine Keeps.bind (Keeps.times ?_ _) fun _ => Keeps.bind (safe_protocol _) fun _ =>
          Keeps.pure _
        exact hany.unchecked .key (generated_key hg hk) fun _ =>
          hany.unchecked .value (generated_element hg he) fun _ => Keeps.pure _
  | STRUCT =>
    refine Spec.bind (spec_protocol (fun _ s _ => ?_) fun _ => ⟨hcall, by simp⟩)
    -- A definition of another type is to blame for a class that is not cached.
    have hknown : Known sch fi.klass (st.trace ++ [.call .STRUCT fi]) := by
      by_cases ht : fi.ftype = .STRUCT
      · exact .inl (generated_klass hg ht)
      · exact .inr ⟨.STRUCT, fi, by simp, ht⟩
    split
    · exact (hunion fi.klass _ hcall hknown).seq fun v t ht =>
        Keeps.bind (safe_protocol _) (fun _ => Keeps.pure _) t ht
    · exact (hstruct fi.klass _ hcall hknown).seq fun v t ht =>
        Keeps.bind (safe_protocol _) (fun _ => Keeps.pure _) t ht
  | STOP | VOID | U64 | UTF8 | UTF16 | unknown =>
    exact after (Keeps.bind (safe_protocol _) fun _ => safe_throw (by simp))

theorem readers_safe (P : TProtocol σ) (sch : Schema) (n : ℕ) :
    AnySafe P sch n ∧ StructSafe sch n (readStruct P sch) ∧
      StructSafe sch n (readUnion P sch) ∧ FieldsSafe P sch n := by
  induction n with
  | zero =>
    refine ⟨?_, ?_, ?_, ?_⟩
    · intro site ttype fi p st hg hp hpend hm
      rw [readAny]
      exact Spec.bind (spec_record (Spec.throw ⟨hp.record_call hpend hg hm, by simp⟩))
    · intro klass st hs _
      exact safe_throw (by simp) st hs
    · intro klass st hs _
      exact safe_throw (by simp) st hs
    · intro klass fields ret _
      exact safe_throw (by simp)
  | succ n ih =>
    obtain ⟨hany, hstruct, hunion, hfields⟩ := ih
    exact ⟨anySafe_succ hany hstruct hunion, structSafe_succ hfields, unionSafe_succ hany,
      fieldsSafe_succ hany hfields⟩

end Readers

section Runs
variable {σ : Type}

/-- The trace a run leaves, whether it returns or raises. -/
def traceOf : EStateM.Result Err (RState σ) Value → List Event
  | .ok _ st => st.trace
  | .error _ st => st.trace

def crashed : EStateM.Result Err (RState σ) Value → Bool
  | .error .crash _ => true
  | _ => false

def headerTyped : Event → Bool
  | .header _ ttype fi => decide (fi.ftype = ttype)
  | _ => true

/-- Every type taken off the wire at a union member, a map key or a map value is
    the declared one. -/
def HeadersTyped (tr : List Event) : Prop := ∀ e ∈ tr, headerTyped e = true

/-- Every call has the declared type, and a struct is of a class that is cached,
    not zero, and dispatched by its base class. -/
def CallsTyped (p : Loading.Program) (tr : List Event) : Prop :=
  ∀ ttype fi, .call ttype fi ∈ tr → fi.ftype = ttype ∧
    (ttype = .STRUCT → fi.klass ≠ 0 ∧ p.schema.Cached fi.klass ∧
      ∃ c, p.findClass fi.klass = some c ∧ p.schema.isUnion fi.klass = c.inheritsUnion)

theorem Traced.mistyped_iff {sch : Schema} {tr : List Event} (h : Traced sch none tr) :
    Mistyped tr ↔ ¬ HeadersTyped tr := by
  constructor
  · rintro ⟨ttype, fi, hc, hne⟩ hall
    obtain ⟨site, hs⟩ := h.called ttype fi hc hne
    exact hne (by simpa [headerTyped] using hall _ hs)
  · intro hall
    simp only [HeadersTyped, not_forall] at hall
    obtain ⟨e, he, hb⟩ := hall
    cases e with
    | header site ttype fi =>
      have hc := h.header site ttype fi he
      simp only [reduceCtorEq, or_false] at hc
      exact ⟨ttype, fi, hc, by simpa [headerTyped] using hb⟩
    | call | skip | «instance» => simp [headerTyped] at hb

theorem callsTyped_iff (p : Loading.Program) {tr : List Event} (h : Traced p.schema none tr) :
    CallsTyped p tr ↔ ¬ Mistyped tr := by
  constructor
  · rintro hall ⟨ttype, fi, hc, hne⟩
    exact hne (hall ttype fi hc).1
  · intro hall ttype fi hc
    have ht : fi.ftype = ttype := by
      by_contra hne
      exact hall ⟨ttype, fi, hc, hne⟩
    refine ⟨ht, fun hs => ?_⟩
    have hcached := generated_klass (h.generated ttype fi hc) (ht.trans hs)
    refine ⟨?_, hcached, ?_⟩
    · intro h0
      simp [Schema.Cached, h0, p.schema.zero] at hcached
    · obtain ⟨c, hclass⟩ := Loading.exists_class p hcached
      exact ⟨c, hclass, Loading.schema_isUnion p hclass⟩

theorem deserialize_traced (P : TProtocol σ) (sch : Schema) (n : ℕ) {klass : VALUE}
    (bytes : List UInt8) (hk : sch.Cached klass) :
    Traced sch none (traceOf (deserialize P sch n klass bytes)) ∧
      (crashed (deserialize P sch n klass bytes) = true →
        Mistyped (traceOf (deserialize P sch n klass bytes))) := by
  obtain ⟨-, hstruct, hunion, -⟩ := readers_safe P sch n
  have body : ∀ read : ℕ → VALUE → Reader σ Value, StructSafe sch n read →
      Safe sch (do protocol P.readStructBegin; let ret ← read n klass; protocol P.readStructEnd
                   pure ret) := fun read hread =>
    Keeps.bind (safe_protocol _) fun _ => Keeps.bind (fun st hs => hread klass st hs (.inl hk))
      fun _ => Keeps.bind (safe_protocol _) fun _ => Keeps.pure _
  have run : Spec (if sch.isUnion klass then serializerReadUnion P sch n klass
      else serializerReadStruct P sch n klass) { input := P.openBuffer bytes }
      (fun _ t => Traced sch none t.trace) (Blamed sch) := by
    split_ifs
    · exact body _ hunion _ Traced.nil
    · exact body _ hstruct _ Traced.nil
  unfold Spec at run
  unfold deserialize
  revert run
  cases (if sch.isUnion klass then serializerReadUnion P sch n klass
      else serializerReadStruct P sch n klass) { input := P.openBuffer bytes } with
  | ok v st => exact fun h => ⟨h, by simp [crashed]⟩
  | error e st =>
    refine fun h => ⟨h.1, fun hc => h.2 ?_⟩
    cases e <;> simp [crashed] at hc ⊢

/-- Every call of `readAny` is typed exactly when the unchecked headers are, and
    then nothing is dereferenced that is no class. -/
theorem deserialize_calls_typed (P : TProtocol σ) (p : Loading.Program) (n : ℕ) (klass : VALUE)
    (bytes : List UInt8) (hk : p.schema.Cached klass) :
    (CallsTyped p (traceOf (deserialize P p.schema n klass bytes)) ↔
      HeadersTyped (traceOf (deserialize P p.schema n klass bytes))) ∧
    (HeadersTyped (traceOf (deserialize P p.schema n klass bytes)) →
      crashed (deserialize P p.schema n klass bytes) = false) := by
  obtain ⟨htr, hcrash⟩ := deserialize_traced P p.schema n bytes hk
  refine ⟨?_, fun hh => ?_⟩
  · rw [callsTyped_iff p htr, htr.mistyped_iff, not_not]
  · by_contra hc
    exact (htr.mistyped_iff.mp (hcrash (by simpa using hc))) hh

end Runs

open BinaryProtocol Loading

/-- A union that carries its declared member. -/
theorem deserialize_calls_typed_union :
    CallsTyped userProgram (traceOf (deserialize binaryProtocol userProgram.schema 8 16
      [8, 0, 1, 0, 0, 0, 7, 0])) :=
  (deserialize_calls_typed binaryProtocol userProgram 8 16 [8, 0, 1, 0, 0, 0, 7, 0]
    (by decide +kernel)).1.mpr (by unfold HeadersTyped; decide +kernel)

/-- A struct under the id of a union's integer member: `readStruct` gets class 0. -/
theorem union_member_struct_crash :
    ¬ CallsTyped userProgram (traceOf (deserialize binaryProtocol userProgram.schema 8 16
      [12, 0, 1, 0, 0])) ∧
    crashed (deserialize binaryProtocol userProgram.schema 8 16 [12, 0, 1, 0, 0]) = true := by
  refine ⟨fun h => ?_, by decide +kernel⟩
  have hcall : ∃ e ∈ traceOf (deserialize binaryProtocol userProgram.schema 8 16 [12, 0, 1, 0, 0]),
      (match e with
        | .call ttype fi => decide (fi.ftype ≠ ttype)
        | _ => false) = true := by decide +kernel
  obtain ⟨e, he, hb⟩ := hcall
  cases e with
  | call ttype fi => exact (of_decide_eq_true hb) (h ttype fi he).1
  | header | skip | «instance» => simp at hb

end Sparsam.DecoderCalls
