import Mathlib.Data.List.Basic

set_option autoImplicit false

/-!
# Outcomes of stateful programs that may raise

`EStateM` keeps the state of a run that raises. `Spec x s Q E` says what holds
of the one outcome of `x` from `s`: `Q` when it returns, `E` when it raises.
-/
namespace Sparsam.ExceptionState

universe u
variable {ε σ α β : Type u}

def Spec (x : EStateM ε σ α) (s : σ) (Q : α → σ → Prop) (E : ε → σ → Prop) : Prop :=
  match x s with
  | .ok a t => Q a t
  | .error e t => E e t

theorem Spec.pure {a : α} {s : σ} {Q : α → σ → Prop} {E : ε → σ → Prop} (h : Q a s) :
    Spec (Pure.pure a) s Q E := h

theorem Spec.throw {e : ε} {s : σ} {Q : α → σ → Prop} {E : ε → σ → Prop} (h : E e s) :
    Spec (MonadExcept.throw e) s Q E := h

theorem Spec.bind {x : EStateM ε σ α} {f : α → EStateM ε σ β} {s : σ}
    {Q : β → σ → Prop} {E : ε → σ → Prop}
    (h : Spec x s (fun a t => Spec (f a) t Q E) E) : Spec (x >>= f) s Q E := by
  change match EStateM.bind x f s with | .ok a t => Q a t | .error e t => E e t
  unfold Spec at h
  unfold EStateM.bind
  cases hx : x s with
  | ok a t => simpa only [hx] using h
  | error e t => simpa only [hx] using h

theorem Spec.mono {x : EStateM ε σ α} {s : σ} {Q Q' : α → σ → Prop} {E E' : ε → σ → Prop}
    (h : Spec x s Q E) (hQ : ∀ a t, Q a t → Q' a t) (hE : ∀ e t, E e t → E' e t) :
    Spec x s Q' E' := by
  unfold Spec at h ⊢
  cases hx : x s with
  | ok a t => exact hQ a t (by simpa only [hx] using h)
  | error e t => exact hE e t (by simpa only [hx] using h)

theorem Spec.seq {x : EStateM ε σ α} {f : α → EStateM ε σ β} {s : σ} {R : α → σ → Prop}
    {Q : β → σ → Prop} {E : ε → σ → Prop}
    (h : Spec x s R E) (hf : ∀ a t, R a t → Spec (f a) t Q E) : Spec (x >>= f) s Q E :=
  Spec.bind (h.mono hf (fun _ _ he => he))

theorem Spec.of_ok {x : EStateM ε σ α} {s t : σ} {a : α} {Q : α → σ → Prop} {E : ε → σ → Prop}
    (h : Spec x s Q E) (hx : x s = .ok a t) : Q a t := by
  simpa only [Spec, hx] using h

theorem Spec.intro {x : EStateM ε σ α} {s : σ} {Q : α → σ → Prop} {E : ε → σ → Prop}
    (ok : ∀ a t, x s = .ok a t → Q a t) (error : ∀ e t, x s = .error e t → E e t) :
    Spec x s Q E := by
  unfold Spec
  cases hx : x s with
  | ok a t => exact ok a t hx
  | error e t => exact error e t hx

/-- `for (i = 0; i < n; i++) ret[i] = x` -/
def times (x : EStateM ε σ α) : ℕ → EStateM ε σ (List α)
  | 0 => Pure.pure []
  | n + 1 => do
    let a ← x
    let as ← times x n
    Pure.pure (a :: as)

/-- The loop rule: one turn keeps `I`, and every value a turn returns satisfies `Q`. -/
theorem Spec.times {x : EStateM ε σ α} {I : σ → Prop} {Q : α → Prop} {E : ε → σ → Prop}
    (step : ∀ s, I s → Spec x s (fun a t => Q a ∧ I t) E) (n : ℕ) (s : σ) (hs : I s) :
    Spec (times x n) s (fun as t => (as.length = n ∧ ∀ a ∈ as, Q a) ∧ I t) E := by
  induction n generalizing s with
  | zero => exact Spec.pure ⟨⟨rfl, by simp⟩, hs⟩
  | succ n ih =>
    refine (step s hs).seq fun a t ha => ?_
    refine (ih t ha.2).seq fun as u has => ?_
    refine Spec.pure ⟨⟨by simp [has.1.1], ?_⟩, has.2⟩
    intro b hb
    rcases List.mem_cons.mp hb with rfl | hb
    · exact ha.1
    · exact has.1.2 b hb

/-- Every outcome of `x` from a state of `I` is in `I` again, or satisfies `E`. -/
def Keeps (I : σ → Prop) (E : ε → σ → Prop) (x : EStateM ε σ α) : Prop :=
  ∀ s, I s → Spec x s (fun _ t => I t) E

section Keeps
variable {I : σ → Prop} {E : ε → σ → Prop}

theorem Keeps.pure (a : α) : Keeps I E (Pure.pure a : EStateM ε σ α) := fun _ hs => Spec.pure hs

theorem Keeps.throw {e : ε} (h : ∀ s, I s → E e s) :
    Keeps I E (MonadExcept.throw e : EStateM ε σ α) := fun s hs => Spec.throw (h s hs)

theorem Keeps.bind {x : EStateM ε σ α} {f : α → EStateM ε σ β} (hx : Keeps I E x)
    (hf : ∀ a, Keeps I E (f a)) : Keeps I E (x >>= f) :=
  fun s hs => (hx s hs).seq fun a t ht => hf a t ht

theorem Keeps.times {x : EStateM ε σ α} (hx : Keeps I E x) (n : ℕ) : Keeps I E (times x n) := by
  induction n with
  | zero => exact Keeps.pure _
  | succ n ih => exact hx.bind fun _ => ih.bind fun _ => Keeps.pure _

end Keeps

/-- A condition `C` on the state a run ends in goes back to the state it
    started from and gives `R` of what the run returns. -/
def Under (C : σ → Prop) (x : EStateM ε σ α) (R : α → Prop) : Prop :=
  ∀ s, Spec x s (fun a t => C t → C s ∧ R a) (fun _ _ => True)

section Under
variable {C : σ → Prop}

theorem Under.pure {a : α} {R : α → Prop} (h : R a) :
    Under C (Pure.pure a : EStateM ε σ α) R := fun _ => Spec.pure fun hs => ⟨hs, h⟩

theorem Under.throw (e : ε) (R : α → Prop) :
    Under C (MonadExcept.throw e : EStateM ε σ α) R := fun _ => Spec.throw trivial

theorem Under.bind {x : EStateM ε σ α} {f : α → EStateM ε σ β} {R : α → Prop} {R' : β → Prop}
    (hx : Under C x R) (hf : ∀ a, Under C (f a) (fun b => R a → R' b)) :
    Under C (x >>= f) R' := by
  intro s
  refine (hx s).seq fun a t ha => ?_
  refine (hf a t).mono (fun b u hb hu => ?_) (fun _ _ _ => trivial)
  obtain ⟨ht, himp⟩ := hb hu
  obtain ⟨hs, hR⟩ := ha ht
  exact ⟨hs, himp hR⟩

theorem Under.mono {x : EStateM ε σ α} {R R' : α → Prop} (hx : Under C x R)
    (h : ∀ a, R a → R' a) : Under C x R' := fun s =>
  (hx s).mono (fun a _ ha ht => ⟨(ha ht).1, h a (ha ht).2⟩) (fun _ _ _ => trivial)

theorem Under.times {x : EStateM ε σ α} {R : α → Prop} (hx : Under C x R) (n : ℕ) :
    Under C (times x n) (fun as => ∀ a ∈ as, R a) := by
  induction n with
  | zero => exact Under.pure (by simp)
  | succ n ih =>
    refine hx.bind fun a => ih.bind fun as => Under.pure ?_
    intro has ha b hb
    rcases List.mem_cons.mp hb with rfl | hb
    · exact ha
    · exact has b hb

end Under

/-- `x` does what `y` does, but where it ends with `e`. -/
def Upto (e : ε) (x y : EStateM ε σ α) : Prop := ∀ s, (∃ t, x s = .error e t) ∨ x s = y s

theorem Upto.refl (e : ε) (x : EStateM ε σ α) : Upto e x x := fun _ => .inr rfl

theorem Upto.throw (e : ε) (y : EStateM ε σ α) : Upto e (MonadExcept.throw e) y :=
  fun s => .inl ⟨s, rfl⟩

theorem Upto.bind {e : ε} {x y : EStateM ε σ α} {f g : α → EStateM ε σ β} (h : Upto e x y)
    (hf : ∀ a, Upto e (f a) (g a)) : Upto e (x >>= f) (y >>= g) := by
  intro s
  change (∃ t, EStateM.bind x f s = _) ∨ EStateM.bind x f s = EStateM.bind y g s
  unfold EStateM.bind
  rcases h s with ⟨t, ht⟩ | heq
  · exact .inl ⟨t, by rw [ht]⟩
  · rw [heq]
    cases y s with
    | ok a t => exact hf a t
    | error e' t => exact .inr rfl

theorem Upto.seq {e : ε} {x : EStateM ε σ α} {f g : α → EStateM ε σ β}
    (hf : ∀ a, Upto e (f a) (g a)) : Upto e (x >>= f) (x >>= g) := (Upto.refl e x).bind hf

theorem Upto.times {e : ε} {x y : EStateM ε σ α} (h : Upto e x y) (n : ℕ) :
    Upto e (times x n) (times y n) := by
  induction n with
  | zero => exact Upto.refl e _
  | succ n ih => exact h.bind fun a => ih.bind fun as => Upto.refl e _

theorem Upto.ok {e : ε} {x y : EStateM ε σ α} (h : Upto e x y) {s t : σ} {a : α}
    (hx : x s = .ok a t) : y s = .ok a t := by
  rcases h s with ⟨t', ht'⟩ | heq
  · rw [hx] at ht'
    cases ht'
  · rw [← heq, hx]

end Sparsam.ExceptionState
