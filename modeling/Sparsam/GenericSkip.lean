import Sparsam.WireProtocol

set_option autoImplicit false

/-!
# Skipping over read primitives

The `skip` that calls the read primitives of its own protocol and drops what
they return. It ends exactly at the end of a value, over any primitives, so two
values of one type can never start at the same place and end at different ones.
-/
namespace Sparsam.GenericSkip
open WireProtocol

abbrev Read (σ α : Type) := σ → Except TException (α × σ)

section Combinators
variable {σ α β : Type}

def mapRead (f : α → β) (x : Read σ α) : Read σ β := fun s =>
  match x s with
  | .ok (a, t) => .ok (f a, t)
  | .error e => .error e

def andThen (x : Read σ α) (f : α → Read σ β) : Read σ β := fun s =>
  match x s with
  | .ok (a, t) => f a t
  | .error e => .error e

def done (a : α) : Read σ α := fun s => .ok (a, s)

def repeatRead (x : Read σ Unit) : ℕ → Read σ Unit
  | 0 => done ()
  | n + 1 => andThen x fun _ => repeatRead x n

theorem andThen_ok {x : Read σ α} {f : α → Read σ β} {s t : σ} {a : α} (h : x s = .ok (a, t)) :
    andThen x f s = f a t := by
  simp only [andThen, h]

theorem mapRead_ok {x : Read σ α} {f : α → β} {s t : σ} {a : α} (h : x s = .ok (a, t)) :
    mapRead f x s = .ok (f a, t) := by
  simp only [mapRead, h]

end Combinators

section Skip
variable {σ : Type} (P : TReader σ)

def void {α : Type} (x : Read σ α) : Read σ Unit := mapRead (fun _ => ()) x

mutual
/-- The generic `skip`, bounded by its first argument. -/
def skipWithin : ℕ → TType → Read σ Unit
  | 0, _ => fun _ => .error "skip"
  | n + 1, ttype =>
    match ttype with
    | .BOOL => void P.readBool
    | .BYTE => void P.readByte
    | .I16 => void P.readI16
    | .I32 => void P.readI32
    | .I64 => void P.readI64
    | .DOUBLE => void P.readDouble
    | .STRING => void P.readBinary
    | .STRUCT => andThen P.readStructBegin fun _ => andThen (skipFields n) fun _ => P.readStructEnd
    | .MAP => andThen P.readMapBegin fun h =>
        andThen (repeatRead (andThen (skipWithin n h.1) fun _ => skipWithin n h.2.1) h.2.2.toNat)
          fun _ => P.readMapEnd
    | .SET => andThen P.readSetBegin fun h =>
        andThen (repeatRead (skipWithin n h.1) h.2.toNat) fun _ => P.readSetEnd
    | .LIST => andThen P.readListBegin fun h =>
        andThen (repeatRead (skipWithin n h.1) h.2.toNat) fun _ => P.readListEnd
    | _ => done ()

def skipFields : ℕ → Read σ Unit
  | 0 => fun _ => .error "skip"
  | n + 1 => andThen P.readFieldBegin fun h =>
      if h.1 = .STOP then done ()
      else andThen (skipWithin n h.1) fun _ => andThen P.readFieldEnd fun _ => skipFields n
end

theorem ofNat_toNat_lt {n : ℕ} (h : n < 2 ^ 31) : (UInt32.ofNat n).toNat = n := by
  simp only [UInt32.toNat_ofNat']
  omega

theorem length_le_flatMap {α β : Type} (f : α → List β) {items : List α} {a : α} (h : a ∈ items) :
    (f a).length ≤ (items.flatMap f).length := by
  rw [List.flatMap_def]
  exact (List.sublist_flatten_of_mem (List.mem_map_of_mem h)).length_le

theorem repeatRead_consumes {α : Type} (x : Read σ Unit) (toks : α → List Token) (items : List α)
    (step : ∀ a ∈ items, ∀ s t, P.Consumes s (toks a) t → x s = .ok ((), t))
    {s t : σ} (h : P.Consumes s (items.flatMap toks) t) :
    repeatRead x items.length s = .ok ((), t) := by
  induction items generalizing s with
  | nil =>
    cases h
    rfl
  | cons a items ih =>
    rw [List.flatMap_cons, TReader.consumes_append] at h
    obtain ⟨u, hu, ht⟩ := h
    change andThen x (fun _ => repeatRead x items.length) s = _
    rw [andThen_ok (step a (by simp) s u hu)]
    exact ih (fun b hb => step b (List.mem_cons_of_mem _ hb)) ht

/-- What `skip` owes a value: with a unit of fuel for each token it stops at its end. -/
def SkipsTo (w : WireValue) : Prop :=
  ∀ s t n, P.Consumes s w.tokens t → w.tokens.length ≤ n → skipWithin P n w.type s = .ok ((), t)

variable {P}

theorem skipsTo_scalar {α : Type} {w : WireValue} {tok : Token} {x : Read σ α} {a : α}
    (htok : w.tokens = [tok]) (hread : ∀ s t, P.Reads tok s t → x s = .ok (a, t))
    (hskip : ∀ n, skipWithin P (n + 1) w.type = void x) : SkipsTo P w := by
  intro s t n h hn
  rw [htok] at h hn
  obtain ⟨u, hu, rfl⟩ := h
  cases n with
  | zero => simp at hn
  | succ n =>
    rw [hskip]
    exact mapRead_ok (hread s u hu)

theorem skipsTo_sequence {w : WireValue} {et : TType} {ws : List WireValue}
    {start : Read σ (TType × UInt32)} {stop : Read σ Unit}
    (htok : w.tokens = .listBegin et (UInt32.ofNat ws.length) ::
      (WireValue.elemTokens ws ++ [.listEnd]))
    (hstart : ∀ s, start s = P.readListBegin s) (hstop : ∀ s, stop s = P.readListEnd s)
    (hskip : ∀ n, skipWithin P (n + 1) w.type = andThen start fun h =>
      andThen (repeatRead (skipWithin P n h.1) h.2.toNat) fun _ => stop)
    (size : ws.length < 2 ^ 31) (types : ∀ w ∈ ws, w.type = et) (ih : ∀ w ∈ ws, SkipsTo P w) :
    SkipsTo P w := by
  intro s t n h hn
  rw [htok] at h hn
  obtain ⟨u, hu, h⟩ := h
  rw [TReader.consumes_append] at h
  obtain ⟨v, hv, v', hend, rfl⟩ := h
  rw [WireValue.elemTokens_eq] at hv hn
  cases n with
  | zero => simp at hn
  | succ n =>
    rw [hskip]
    refine (andThen_ok ((hstart s).trans hu)).trans ?_
    simp only [ofNat_toNat_lt size]
    refine (andThen_ok (repeatRead_consumes P _ WireValue.tokens ws ?_ hv)).trans
      ((hstop v).trans hend)
    intro w hw s t hc
    have hlen := length_le_flatMap WireValue.tokens hw
    simp only [List.length_cons, List.length_append] at hn
    rw [← types w hw]
    exact ih w hw s t n hc (by omega)

theorem skipFields_consumes (fs : List (Int16 × WireValue)) (ih : ∀ f ∈ fs, SkipsTo P f.2)
    {s t : σ} {n : ℕ} (h : P.Consumes s (WireValue.bodyTokens fs) t)
    (hn : (WireValue.bodyTokens fs).length ≤ n) : skipFields P n s = .ok ((), t) := by
  induction fs generalizing s n with
  | nil =>
    obtain ⟨u, ⟨fid, hu⟩, rfl⟩ := h
    cases n with
    | zero => simp [WireValue.bodyTokens] at hn
    | succ n => exact andThen_ok hu
  | cons f fs ihfs =>
    obtain ⟨fid, w⟩ := f
    rw [WireValue.bodyTokens_cons] at h hn
    obtain ⟨u, hu, h⟩ := h
    rw [TReader.consumes_append] at h
    obtain ⟨v, hv, v', hend, h⟩ := h
    simp only [List.length_cons, List.length_append] at hn
    cases n with
    | zero => omega
    | succ n =>
      refine (andThen_ok hu).trans ?_
      simp only [WireValue.type_ne_stop, ↓reduceIte]
      have hlen : w.tokens.length ≤ n := by omega
      rw [andThen_ok (ih (fid, w) (by simp) u v n hv hlen), andThen_ok hend]
      exact ihfs (fun g hg => ih g (List.mem_cons_of_mem _ hg)) h (by omega)

theorem skipsTo (hP : P.SharedList) (hbin : ∀ s, P.readBinary s = P.readString s) (w : WireValue)
    (hw : w.WellFormed) : SkipsTo P w := by
  induction w using WireValue.induct with
  | bool b => exact skipsTo_scalar rfl (fun _ _ h => h) fun _ => rfl
  | byte n => exact skipsTo_scalar rfl (fun _ _ h => h) fun _ => rfl
  | i16 n => exact skipsTo_scalar rfl (fun _ _ h => h) fun _ => rfl
  | i32 n => exact skipsTo_scalar rfl (fun _ _ h => h) fun _ => rfl
  | i64 n => exact skipsTo_scalar rfl (fun _ _ h => h) fun _ => rfl
  | double b => exact skipsTo_scalar rfl (fun _ _ h => h) fun _ => rfl
  | string isBinary b =>
    cases isBinary with
    | true => exact skipsTo_scalar rfl (fun _ _ h => h) fun _ => rfl
    | false => exact skipsTo_scalar rfl (fun s _ h => (hbin s).trans h) fun _ => rfl
  | list et ws ih =>
    cases hw with
    | list _ _ size wire types elems =>
      exact skipsTo_sequence rfl (fun _ => rfl) (fun _ => rfl) (fun _ => rfl) size types
        fun w hw => ih w hw (elems w hw)
  | set et ws ih =>
    cases hw with
    | set _ _ size wire types elems =>
      exact skipsTo_sequence rfl hP.setBegin hP.setEnd (fun _ => rfl) size types
        fun w hw => ih w hw (elems w hw)
  | map kt vt kvs ih =>
    cases hw with
    | map _ _ _ size keyWire valueWire types keys values =>
      intro s t n h hn
      rw [WireValue.tokens, WireValue.entryTokens_eq] at h hn
      obtain ⟨u, ⟨kt', vt', hu, hne⟩, h⟩ := h
      rw [TReader.consumes_append] at h
      obtain ⟨v, hv, v', hend, rfl⟩ := h
      cases n with
      | zero => simp at hn
      | succ n =>
        refine (andThen_ok hu).trans ?_
        simp only [ofNat_toNat_lt size]
        refine (andThen_ok (repeatRead_consumes P _ _ kvs ?_ hv)).trans hend
        intro e he s t hc
        rw [TReader.consumes_append] at hc
        obtain ⟨m, hk, hv⟩ := hc
        have hsize : UInt32.ofNat kvs.length ≠ 0 := by
          intro h0
          have h1 := ofNat_toNat_lt size
          rw [h0] at h1
          simp [List.eq_nil_of_length_eq_zero h1.symm] at he
        obtain ⟨hkt, hvt⟩ := hne hsize
        have hlen :=
          length_le_flatMap (fun e : WireValue × WireValue => e.1.tokens ++ e.2.tokens) he
        simp only [List.length_cons, List.length_append] at hn hlen
        rw [hkt, hvt, ← (types e he).1, ← (types e he).2]
        rw [andThen_ok ((ih e he).1 (keys e he) s m n hk (by omega))]
        exact (ih e he).2 (values e he) m t n hv (by omega)
  | struct fs ih =>
    cases hw with
    | struct _ fields =>
      intro s t n h hn
      rw [WireValue.tokens_struct] at h hn
      obtain ⟨u, hu, h⟩ := h
      rw [TReader.consumes_append] at h
      obtain ⟨v, hv, v', hend, rfl⟩ := h
      simp only [List.length_cons, List.length_append] at hn
      cases n with
      | zero => omega
      | succ n =>
        refine (andThen_ok hu).trans ?_
        rw [andThen_ok (skipFields_consumes fs (fun f hf => ih f hf (fields f hf)) hv (by omega))]
        exact hend

/-- Two values of one type that start at one place end at one place. -/
theorem consumes_unique (hP : P.SharedList) (hbin : ∀ s, P.readBinary s = P.readString s)
    {w w' : WireValue} (hw : w.WellFormed) (hw' : w'.WellFormed) (ht : w.type = w'.type)
    {s t t' : σ} (h : P.Consumes s w.tokens t) (h' : P.Consumes s w'.tokens t') : t = t' := by
  have h1 := skipsTo hP hbin w hw s t (w.tokens.length + w'.tokens.length) h (by omega)
  have h2 := skipsTo hP hbin w' hw' s t' (w.tokens.length + w'.tokens.length) h' (by omega)
  rw [ht, h2] at h1
  simpa using h1.symm

open Classical in
/-- The `skip` that the read primitives determine. -/
noncomputable def idealSkip (P : TReader σ) (ttype : TType) : Read σ Unit := fun s =>
  if h : ∃ t w, WireValue.WellFormed w ∧ w.type = ttype ∧ P.Consumes s w.tokens t then
    .ok ((), h.choose)
  else .error "skip"

theorem idealSkip_exact (hP : P.SharedList) (hbin : ∀ s, P.readBinary s = P.readString s)
    (w : WireValue) (s t : σ) (hw : w.WellFormed) (h : P.Consumes s w.tokens t) :
    idealSkip P w.type s = .ok ((), t) := by
  have hex : ∃ t w', WireValue.WellFormed w' ∧ w'.type = w.type ∧ P.Consumes s w'.tokens t :=
    ⟨t, w, hw, rfl, h⟩
  obtain ⟨w', hw', ht, hc⟩ := hex.choose_spec
  rw [idealSkip, dif_pos hex, consumes_unique hP hbin hw' hw ht hc h]

end Skip

end Sparsam.GenericSkip
