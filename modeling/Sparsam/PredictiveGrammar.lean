import Mathlib.Data.List.Basic

set_option autoImplicit false

/-!
# Grammars that the next token decides

The right side of a rule is an expression over kinds of tokens and names of
rules, together with the value that it makes. Where no choice in it needs more
than the next token, the parser that looks at this token reads a front of the
input exactly when the grammar derives it, and a text has one value at most.
-/
namespace Sparsam.PredictiveGrammar

/-- The right side of a rule: `κ` are the kinds of the tokens `τ`, and `N` the names of
    the rules by the type of their values. -/
inductive Rule (τ κ : Type) (N : Type → Type) : Type → Type 1 where
  | token {α : Type} (kind : κ) (value : τ → α) : Rule τ κ N α
  | call {α : Type} (name : N α) : Rule τ κ N α
  | map {α β : Type} (f : α → β) (r : Rule τ κ N α) : Rule τ κ N β
  | seq {α β : Type} (r : Rule τ κ N α) (s : Rule τ κ N β) : Rule τ κ N (α × β)
  | alt {α : Type} (r s : Rule τ κ N α) : Rule τ κ N α
  | opt {α : Type} (r : Rule τ κ N α) : Rule τ κ N (Option α)
  | many {α : Type} (r : Rule τ κ N α) : Rule τ κ N (List α)

/-- One text after the other, each with its value. -/
inductive Many {τ α : Type} (language : α → List τ → Prop) : List α → List τ → Prop
  | nil : Many language [] []
  | cons {a : α} {as : List α} {front rest : List τ} (head : language a front)
      (tail : Many language as rest) : Many language (a :: as) (front ++ rest)

/-- What is known of a rule: the kinds that its texts start with, the kinds that may not
    follow one of them, and whether the empty text is one. -/
structure Facts (κ : Type) where
  starts : List κ
  avoids : List κ
  empty : Bool

abbrev Parser (τ α : Type) := List τ → Option (α × List τ)

variable {τ κ : Type} {N : Type → Type} {α β : Type}

namespace Rule

def left (r : Rule τ κ N α) (s : Rule τ κ N β) : Rule τ κ N α := (r.seq s).map Prod.fst

def right (r : Rule τ κ N α) (s : Rule τ κ N β) : Rule τ κ N β := (r.seq s).map Prod.snd

/-- The texts that a rule derives, each with its value, given those of the names. -/
def Derives (kindOf : τ → κ) (names : (α : Type) → N α → α → List τ → Prop) :
    {α : Type} → Rule τ κ N α → α → List τ → Prop
  | _, .token kind value, a, ts => ∃ t, ts = [t] ∧ kindOf t = kind ∧ value t = a
  | α, .call name, a, ts => names α name a ts
  | _, .map f r, b, ts => ∃ a, f a = b ∧ r.Derives kindOf names a ts
  | _, .seq r s, p, ts => ∃ front rest, ts = front ++ rest ∧
      r.Derives kindOf names p.1 front ∧ s.Derives kindOf names p.2 rest
  | _, .alt r s, a, ts => r.Derives kindOf names a ts ∨ s.Derives kindOf names a ts
  | _, .opt _, none, ts => ts = []
  | _, .opt r, some a, ts => r.Derives kindOf names a ts
  | _, .many r, as, ts => Many (r.Derives kindOf names) as ts

/-- The facts of a rule, given those of the names. -/
def facts (names : (α : Type) → N α → Facts κ) : {α : Type} → Rule τ κ N α → Facts κ
  | _, .token kind _ => ⟨[kind], [], false⟩
  | α, .call name => names α name
  | _, .map _ r => r.facts names
  | _, .seq r s =>
    { starts := (r.facts names).starts ++
        if (r.facts names).empty then (s.facts names).starts else []
      avoids := (s.facts names).avoids ++
        if (s.facts names).empty then (r.facts names).avoids else []
      empty := (r.facts names).empty && (s.facts names).empty }
  | _, .alt r s =>
    ⟨(r.facts names).starts ++ (s.facts names).starts,
      (r.facts names).avoids ++ (s.facts names).avoids, false⟩
  | _, .opt r | _, .many r =>
    ⟨(r.facts names).starts, (r.facts names).starts ++ (r.facts names).avoids, true⟩

def apart [DecidableEq κ] (ks ks' : List κ) : Bool := ks.all fun k => !ks'.contains k

/-- No choice of the rule needs more than the next token. -/
def decided [DecidableEq κ] (names : (α : Type) → N α → Facts κ) :
    {α : Type} → Rule τ κ N α → Bool
  | _, .token _ _ | _, .call _ => true
  | _, .map _ r => r.decided names
  | _, .seq r s => r.decided names && s.decided names &&
      apart (r.facts names).avoids (s.facts names).starts
  | _, .alt r s => r.decided names && s.decided names && !(r.facts names).empty &&
      !(s.facts names).empty && apart (r.facts names).starts (s.facts names).starts
  | _, .opt r => r.decided names && !(r.facts names).empty
  | _, .many r => r.decided names && !(r.facts names).empty &&
      apart (r.facts names).avoids (r.facts names).starts

end Rule

section Parsing
variable [DecidableEq κ] (kindOf : τ → κ)

def next (kinds : List κ) : List τ → Bool
  | [] => false
  | t :: _ => kinds.contains (kindOf t)

def single (kind : κ) (value : τ → α) : Parser τ α
  | [] => none
  | t :: rest => if kindOf t = kind then some (value t, rest) else none

/-- Item after item, while the next token starts one; the bound is the length of the input. -/
def manyFrom (starts : List κ) (item : Parser τ α) : ℕ → Parser τ (List α)
  | 0, ts => some ([], ts)
  | n + 1, ts =>
    if next kindOf starts ts then
      (item ts).bind fun a => (manyFrom starts item n a.2).map fun as => (a.1 :: as.1, as.2)
    else some ([], ts)

/-- The parser of a rule, given those of the names. -/
def Rule.parse (facts : (α : Type) → N α → Facts κ) (names : (α : Type) → N α → Parser τ α) :
    {α : Type} → Rule τ κ N α → Parser τ α
  | _, .token kind value, ts => single kindOf kind value ts
  | α, .call name, ts => names α name ts
  | _, .map f r, ts => (r.parse facts names ts).map fun a => (f a.1, a.2)
  | _, .seq r s, ts => (r.parse facts names ts).bind fun a =>
      (s.parse facts names a.2).map fun b => ((a.1, b.1), b.2)
  | _, .alt r s, ts =>
    if next kindOf (r.facts facts).starts ts then r.parse facts names ts else s.parse facts names ts
  | _, .opt r, ts =>
    if next kindOf (r.facts facts).starts ts then
      (r.parse facts names ts).map fun a => (some a.1, a.2)
    else some (none, ts)
  | _, .many r, ts => manyFrom kindOf (r.facts facts).starts (r.parse facts names) ts.length ts

end Parsing

/-- The parser reads exactly the texts of the language, where nothing that it avoids
    follows. -/
structure Exact [DecidableEq κ] (kindOf : τ → κ) (facts : Facts κ)
    (language : α → List τ → Prop) (parser : Parser τ α) : Prop where
  sound : ∀ ts a rest, parser ts = some (a, rest) → ∃ front, ts = front ++ rest ∧ language a front
  complete : ∀ a front rest, language a front → next kindOf facts.avoids rest = false →
    parser (front ++ rest) = some (a, rest)
  starts : ∀ a t ts, language a (t :: ts) → kindOf t ∈ facts.starts
  empty : ∀ a, language a [] → facts.empty = true

section Exactness
variable [DecidableEq κ] {kindOf : τ → κ} {f g : Facts κ} {language : α → List τ → Prop}
  {parser : Parser τ α}

theorem next_cons (kinds : List κ) (t : τ) (ts : List τ) :
    next kindOf kinds (t :: ts) = true ↔ kindOf t ∈ kinds := by simp [next]

theorem next_append (kinds kinds' : List κ) (ts : List τ) :
    next kindOf (kinds ++ kinds') ts = (next kindOf kinds ts || next kindOf kinds' ts) := by
  cases ts with
  | nil => rfl
  | cons t ts => simp [next]

theorem apart_iff (ks ks' : List κ) : Rule.apart ks ks' = true ↔ ∀ k ∈ ks, k ∉ ks' := by
  simp [Rule.apart]

theorem Exact.next_starts (h : Exact kindOf f language parser) {a : α} {front : List τ}
    (hfront : language a front) (hempty : f.empty = false) (rest : List τ) :
    next kindOf f.starts (front ++ rest) = true := by
  cases front with
  | nil => exact absurd (h.empty a hfront) (by simp [hempty])
  | cons t ts =>
    rw [List.cons_append, next_cons]
    exact h.starts a t ts hfront

theorem Exact.next_avoids (h : Exact kindOf f language parser) {a : α} {front : List τ}
    (hfront : language a front) {kinds : List κ} (hapart : ∀ k ∈ kinds, k ∉ f.starts)
    {rest : List τ} (hrest : f.empty = true → next kindOf kinds rest = false) :
    next kindOf kinds (front ++ rest) = false := by
  cases front with
  | nil => exact hrest (h.empty a hfront)
  | cons t ts =>
    rw [List.cons_append, Bool.eq_false_iff, ne_eq, next_cons]
    intro hmem
    exact hapart _ hmem (h.starts a t ts hfront)

theorem exact_token (kind : κ) (value : τ → α) :
    Exact kindOf ⟨[kind], [], false⟩
      (fun a ts => ∃ t, ts = [t] ∧ kindOf t = kind ∧ value t = a) (single kindOf kind value) where
  sound ts a rest h := by
    cases ts with
    | nil => cases h
    | cons t ts =>
      rw [single] at h
      split at h
      · rename_i hkind
        obtain ⟨rfl, rfl⟩ := Prod.mk.inj (Option.some.inj h)
        exact ⟨[t], rfl, t, rfl, hkind, rfl⟩
      · cases h
  complete a front rest h _ := by
    obtain ⟨t, rfl, hkind, rfl⟩ := h
    exact if_pos hkind
  starts a t ts h := by
    obtain ⟨u, hu, hkind, -⟩ := h
    obtain ⟨rfl, -⟩ := List.cons.inj hu
    exact List.mem_singleton.mpr hkind
  empty a h := by
    obtain ⟨t, ht, -⟩ := h
    cases ht

theorem Exact.map (h : Exact kindOf f language parser) (value : α → β) :
    Exact kindOf f (fun b ts => ∃ a, value a = b ∧ language a ts)
      (fun ts => (parser ts).map fun a => (value a.1, a.2)) where
  sound ts b rest hb := by
    obtain ⟨⟨a, rest'⟩, ha, heq⟩ := Option.map_eq_some_iff.mp hb
    obtain ⟨rfl, rfl⟩ := Prod.mk.inj heq
    obtain ⟨front, hts, hfront⟩ := h.sound ts a rest' ha
    exact ⟨front, hts, a, rfl, hfront⟩
  complete b front rest hb hrest := by
    obtain ⟨a, rfl, ha⟩ := hb
    rw [h.complete a front rest ha hrest]
    rfl
  starts b t ts hb := by
    obtain ⟨a, -, ha⟩ := hb
    exact h.starts a t ts ha
  empty b hb := by
    obtain ⟨a, -, ha⟩ := hb
    exact h.empty a ha

theorem Exact.seq {language' : β → List τ → Prop} {parser' : Parser τ β}
    (h : Exact kindOf f language parser) (h' : Exact kindOf g language' parser')
    (hapart : Rule.apart f.avoids g.starts = true) :
    Exact kindOf ⟨f.starts ++ if f.empty then g.starts else [],
        g.avoids ++ if g.empty then f.avoids else [], f.empty && g.empty⟩
      (fun p ts => ∃ front rest, ts = front ++ rest ∧ language p.1 front ∧ language' p.2 rest)
      (fun ts => (parser ts).bind fun a => (parser' a.2).map fun b => ((a.1, b.1), b.2)) where
  sound ts p rest hp := by
    obtain ⟨⟨a, mid⟩, ha, hp⟩ := Option.bind_eq_some_iff.mp hp
    obtain ⟨⟨b, rest'⟩, hb, heq⟩ := Option.map_eq_some_iff.mp hp
    obtain ⟨rfl, rfl⟩ := Prod.mk.inj heq
    obtain ⟨front, rfl, hfront⟩ := h.sound ts a mid ha
    obtain ⟨back, rfl, hback⟩ := h'.sound mid b rest' hb
    exact ⟨front ++ back, (List.append_assoc _ _ _).symm, front, back, rfl, hfront, hback⟩
  complete p text rest hp hrest := by
    obtain ⟨front, back, rfl, hfront, hback⟩ := hp
    rw [next_append, Bool.or_eq_false_iff] at hrest
    obtain ⟨hrest, hempty⟩ := hrest
    have hclear : next kindOf f.avoids (back ++ rest) = false := by
      apply h'.next_avoids hback ((apart_iff _ _).mp hapart)
      intro hg
      rwa [hg, if_pos rfl] at hempty
    rw [List.append_assoc, h.complete p.1 front _ hfront hclear, Option.bind_some,
      h'.complete p.2 back rest hback hrest]
    rfl
  starts p t ts hp := by
    obtain ⟨front, back, hts, hfront, hback⟩ := hp
    cases front with
    | nil =>
      rw [List.nil_append] at hts
      rw [← hts] at hback
      rw [List.mem_append, if_pos (h.empty p.1 hfront)]
      exact .inr (h'.starts p.2 t ts hback)
    | cons u us =>
      obtain ⟨rfl, -⟩ := List.cons.inj hts
      exact List.mem_append_left _ (h.starts p.1 t us hfront)
  empty p hp := by
    obtain ⟨front, back, hts, hfront, hback⟩ := hp
    obtain ⟨rfl, rfl⟩ := List.append_eq_nil_iff.mp hts.symm
    rw [h.empty p.1 hfront, h'.empty p.2 hback]
    rfl

theorem Exact.alt {language' : α → List τ → Prop} {parser' : Parser τ α}
    (h : Exact kindOf f language parser) (h' : Exact kindOf g language' parser')
    (hf : f.empty = false) (hg : g.empty = false) (hapart : Rule.apart f.starts g.starts = true) :
    Exact kindOf ⟨f.starts ++ g.starts, f.avoids ++ g.avoids, false⟩
      (fun a ts => language a ts ∨ language' a ts)
      (fun ts => if next kindOf f.starts ts then parser ts else parser' ts) where
  sound ts a rest ha := by
    split at ha
    · obtain ⟨front, hts, hfront⟩ := h.sound ts a rest ha
      exact ⟨front, hts, .inl hfront⟩
    · obtain ⟨front, hts, hfront⟩ := h'.sound ts a rest ha
      exact ⟨front, hts, .inr hfront⟩
  complete a front rest ha hrest := by
    rw [next_append, Bool.or_eq_false_iff] at hrest
    rcases ha with ha | ha
    · rw [if_pos (h.next_starts ha hf rest)]
      exact h.complete a front rest ha hrest.1
    · have hother : next kindOf f.starts (front ++ rest) = false := by
        apply h'.next_avoids ha ((apart_iff _ _).mp hapart)
        simp [hg]
      rw [hother, if_neg (by simp)]
      exact h'.complete a front rest ha hrest.2
  starts a t ts ha := by
    rcases ha with ha | ha
    · exact List.mem_append_left _ (h.starts a t ts ha)
    · exact List.mem_append_right _ (h'.starts a t ts ha)
  empty a ha := by
    rcases ha with ha | ha
    · exact absurd (h.empty a ha) (by simp [hf])
    · exact absurd (h'.empty a ha) (by simp [hg])

def Optional (language : α → List τ → Prop) : Option α → List τ → Prop
  | none, ts => ts = []
  | some a, ts => language a ts

theorem Exact.opt (h : Exact kindOf f language parser) (hf : f.empty = false) :
    Exact kindOf ⟨f.starts, f.starts ++ f.avoids, true⟩ (Optional language)
      (fun ts => if next kindOf f.starts ts then (parser ts).map fun a => (some a.1, a.2)
        else some (none, ts)) where
  sound ts o rest ho := by
    split at ho
    · obtain ⟨⟨a, rest'⟩, ha, heq⟩ := Option.map_eq_some_iff.mp ho
      obtain ⟨rfl, rfl⟩ := Prod.mk.inj heq
      exact h.sound ts a rest' ha
    · obtain ⟨rfl, rfl⟩ := Prod.mk.inj (Option.some.inj ho)
      exact ⟨[], rfl, rfl⟩
  complete o front rest ho hrest := by
    rw [next_append, Bool.or_eq_false_iff] at hrest
    cases o with
    | none =>
      obtain rfl : front = [] := ho
      rw [List.nil_append, hrest.1, if_neg (by simp)]
    | some a =>
      rw [if_pos (h.next_starts ho hf rest), h.complete a front rest ho hrest.2]
      rfl
  starts o t ts ho := by
    cases o with
    | none => cases ho
    | some a => exact h.starts a t ts ho
  empty _ _ := rfl

theorem manyFrom_complete (h : Exact kindOf f language parser) (hf : f.empty = false)
    (hapart : Rule.apart f.avoids f.starts = true) {as : List α} {front : List τ}
    (has : Many language as front) (rest : List τ)
    (hrest : next kindOf (f.starts ++ f.avoids) rest = false) {n : ℕ} (hn : front.length ≤ n) :
    manyFrom kindOf f.starts parser n (front ++ rest) = some (as, rest) := by
  rw [next_append, Bool.or_eq_false_iff] at hrest
  induction has generalizing n with
  | nil =>
    cases n with
    | zero => rfl
    | succ n =>
      unfold manyFrom
      rw [List.nil_append, hrest.1, if_neg (by simp)]
  | @cons a as front back head tail ih =>
    have hpos : 0 < front.length := by
      apply List.length_pos_of_ne_nil
      intro hnil
      rw [hnil] at head
      exact absurd (h.empty a head) (by simp [hf])
    rw [List.length_append] at hn
    have hclear : next kindOf f.avoids (back ++ rest) = false := by
      cases tail with
      | nil => exact hrest.2
      | cons head' _ =>
        rw [List.append_assoc]
        apply h.next_avoids head' ((apart_iff _ _).mp hapart)
        simp [hf]
    cases n with
    | zero => omega
    | succ n =>
      unfold manyFrom
      rw [List.append_assoc, if_pos (h.next_starts head hf _), h.complete a front _ head hclear,
        Option.bind_some, ih (by omega)]
      rfl

theorem manyFrom_sound (h : Exact kindOf f language parser) {n : ℕ} {ts : List τ} {as : List α}
    {rest : List τ} (has : manyFrom kindOf f.starts parser n ts = some (as, rest)) :
    ∃ front, ts = front ++ rest ∧ Many language as front := by
  induction n generalizing ts as with
  | zero =>
    obtain ⟨rfl, rfl⟩ := Prod.mk.inj (Option.some.inj has)
    exact ⟨[], rfl, .nil⟩
  | succ n ih =>
    unfold manyFrom at has
    split at has
    · obtain ⟨⟨a, mid⟩, ha, has⟩ := Option.bind_eq_some_iff.mp has
      obtain ⟨⟨bs, rest'⟩, hbs, heq⟩ := Option.map_eq_some_iff.mp has
      obtain ⟨rfl, rfl⟩ := Prod.mk.inj heq
      obtain ⟨front, rfl, hfront⟩ := h.sound ts a mid ha
      obtain ⟨back, rfl, hback⟩ := ih hbs
      exact ⟨front ++ back, (List.append_assoc _ _ _).symm, .cons hfront hback⟩
    · obtain ⟨rfl, rfl⟩ := Prod.mk.inj (Option.some.inj has)
      exact ⟨[], rfl, .nil⟩

theorem many_starts (h : Exact kindOf f language parser) (hf : f.empty = false) {as : List α}
    {t : τ} {ts : List τ} (has : Many language as (t :: ts)) : kindOf t ∈ f.starts := by
  generalize hts : t :: ts = text at has
  cases has with
  | nil => cases hts
  | @cons a _ front _ head _ =>
    cases front with
    | nil => exact absurd (h.empty a head) (by simp [hf])
    | cons u us =>
      obtain ⟨rfl, -⟩ := List.cons.inj hts
      exact h.starts a t us head

theorem Exact.many (h : Exact kindOf f language parser) (hf : f.empty = false)
    (hapart : Rule.apart f.avoids f.starts = true) :
    Exact kindOf ⟨f.starts, f.starts ++ f.avoids, true⟩ (Many language)
      (fun ts => manyFrom kindOf f.starts parser ts.length ts) where
  sound _ _ _ has := manyFrom_sound h has
  complete as front rest has hrest :=
    manyFrom_complete h hf hapart has rest hrest (by rw [List.length_append]; omega)
  starts _ _ _ has := many_starts h hf has
  empty _ _ := rfl

theorem Exact.weaken (h : Exact kindOf f language parser)
    (hstarts : ∀ k ∈ f.starts, k ∈ g.starts) (havoids : ∀ k ∈ f.avoids, k ∈ g.avoids)
    (hempty : f.empty = true → g.empty = true) : Exact kindOf g language parser where
  sound := h.sound
  complete a front rest ha hrest := by
    apply h.complete a front rest ha
    cases rest with
    | nil => rfl
    | cons t ts =>
      rw [Bool.eq_false_iff, ne_eq, next_cons] at hrest ⊢
      exact fun hmem => hrest (havoids _ hmem)
  starts a t ts ha := hstarts _ (h.starts a t ts ha)
  empty a ha := hempty (h.empty a ha)

/-- A decided rule is parsed exactly where the names are. -/
theorem Rule.exact {facts : (α : Type) → N α → Facts κ}
    {languages : (α : Type) → N α → α → List τ → Prop} {parsers : (α : Type) → N α → Parser τ α}
    (hnames : ∀ α name, Exact kindOf (facts α name) (languages α name) (parsers α name))
    (r : Rule τ κ N α) (hr : r.decided facts = true) :
    Exact kindOf (r.facts facts) (r.Derives kindOf languages) (r.parse kindOf facts parsers) := by
  induction r with
  | token kind value => exact exact_token kind value
  | call name => exact hnames _ name
  | map value r ih => exact (ih hr).map value
  | seq r s ihr ihs =>
    simp only [Rule.decided, Bool.and_eq_true] at hr
    exact (ihr hr.1.1).seq (ihs hr.1.2) hr.2
  | alt r s ihr ihs =>
    simp only [Rule.decided, Bool.and_eq_true, Bool.not_eq_true'] at hr
    exact (ihr hr.1.1.1.1).alt (ihs hr.1.1.1.2) hr.1.1.2 hr.1.2 hr.2
  | opt r ih =>
    simp only [Rule.decided, Bool.and_eq_true, Bool.not_eq_true'] at hr
    have h := (ih hr.1).opt hr.2
    have hsame : Rule.Derives kindOf languages r.opt =
        Optional (Rule.Derives kindOf languages r) := by
      funext o ts
      cases o <;> rfl
    rw [hsame]
    exact h
  | many r ih =>
    simp only [Rule.decided, Bool.and_eq_true, Bool.not_eq_true'] at hr
    exact (ih hr.1.1).many hr.1.2 hr.2

end Exactness

theorem Rule.derives_mono {kindOf : τ → κ} {names names' : (α : Type) → N α → α → List τ → Prop}
    (h : ∀ α name a ts, names α name a ts → names' α name a ts) (r : Rule τ κ N α) :
    ∀ a ts, r.Derives kindOf names a ts → r.Derives kindOf names' a ts := by
  induction r with
  | token => exact fun _ _ ha => ha
  | call name => exact h _ name
  | map f r ih =>
    rintro b ts ⟨a, hb, ha⟩
    exact ⟨a, hb, ih a ts ha⟩
  | seq r s ihr ihs =>
    rintro p ts ⟨front, rest, hts, hr, hs⟩
    exact ⟨front, rest, hts, ihr _ _ hr, ihs _ _ hs⟩
  | alt r s ihr ihs =>
    rintro a ts (ha | ha)
    · exact .inl (ihr a ts ha)
    · exact .inr (ihs a ts ha)
  | opt r ih =>
    intro o ts ho
    cases o with
    | none => exact ho
    | some a => exact ih a ts ho
  | many r ih =>
    intro as ts has
    change Many _ as ts at has
    change Many _ as ts
    induction has with
    | nil => exact .nil
    | cons head _ iht => exact .cons (ih _ _ head) iht

section Parts
variable {kindOf : τ → κ} {names : (α : Type) → N α → α → List τ → Prop} {ts : List τ}

theorem Rule.derives_of_left {r : Rule τ κ N α} {s : Rule τ κ N β} {a : α}
    (h : (r.left s).Derives kindOf names a ts) :
    ∃ front, front ⊆ ts ∧ r.Derives kindOf names a front := by
  obtain ⟨p, rfl, front, rest, rfl, hr, -⟩ := h
  exact ⟨front, List.subset_append_left _ _, hr⟩

theorem Rule.derives_of_right {r : Rule τ κ N α} {s : Rule τ κ N β} {b : β}
    (h : (r.right s).Derives kindOf names b ts) :
    ∃ rest, rest ⊆ ts ∧ s.Derives kindOf names b rest := by
  obtain ⟨p, rfl, front, rest, rfl, -, hs⟩ := h
  exact ⟨rest, List.subset_append_right _ _, hs⟩

theorem Many.of_mem {language : α → List τ → Prop} {as : List α} (h : Many language as ts) {a : α}
    (ha : a ∈ as) : ∃ front, front ⊆ ts ∧ language a front := by
  induction h with
  | nil => cases ha
  | @cons b bs front rest head _ ih =>
    rcases List.mem_cons.mp ha with rfl | ha
    · exact ⟨front, List.subset_append_left _ _, head⟩
    · obtain ⟨front', hfront, hlanguage⟩ := ih ha
      exact ⟨front', List.subset_append_of_subset_right _ hfront, hlanguage⟩

end Parts

/-- Rules by name, which the next token decides. -/
structure Grammar (τ κ : Type) [DecidableEq κ] (N : Type → Type) where
  kindOf : τ → κ
  rule : (α : Type) → N α → Rule τ κ N α
  facts : (α : Type) → N α → Facts κ
  decided : ∀ α name, (rule α name).decided facts = true
  starts : ∀ α name, ∀ k ∈ ((rule α name).facts facts).starts, k ∈ (facts α name).starts
  avoids : ∀ α name, ∀ k ∈ ((rule α name).facts facts).avoids, k ∈ (facts α name).avoids
  empty : ∀ α name, ((rule α name).facts facts).empty = true → (facts α name).empty = true

namespace Grammar
variable [DecidableEq κ] (G : Grammar τ κ N)

/-- The derivations in which the names are opened to this depth. -/
def derives : ℕ → (α : Type) → N α → α → List τ → Prop
  | 0, _, _, _, _ => False
  | n + 1, α, name, a, ts => (G.rule α name).Derives G.kindOf (derives n) a ts

def Language (name : N α) (a : α) (ts : List τ) : Prop := ∃ n, G.derives n α name a ts

def parse : ℕ → (α : Type) → N α → Parser τ α
  | 0, _, _, _ => none
  | n + 1, α, name, ts => (G.rule α name).parse G.kindOf G.facts (parse n) ts

def parseAll (n : ℕ) (name : N α) (ts : List τ) : Option α :=
  match G.parse n α name ts with
  | some (a, []) => some a
  | _ => none

theorem exact (n : ℕ) : ∀ (α : Type) (name : N α),
    Exact G.kindOf (G.facts α name) (G.derives n α name) (G.parse n α name) := by
  induction n with
  | zero =>
    intro α name
    constructor
    · intro ts a rest h
      cases h
    · exact fun _ _ _ h => False.elim h
    · exact fun _ _ _ h => False.elim h
    · exact fun _ h => False.elim h
  | succ n ih =>
    intro α name
    have h := Rule.exact ih (G.rule α name) (G.decided α name)
    exact h.weaken (G.starts α name) (G.avoids α name) (G.empty α name)

theorem derives_succ (n : ℕ) : ∀ (α : Type) (name : N α) (a : α) (ts : List τ),
    G.derives n α name a ts → G.derives (n + 1) α name a ts := by
  induction n with
  | zero => exact fun _ _ _ _ h => h.elim
  | succ n ih => exact fun α name => Rule.derives_mono ih (G.rule α name)

theorem derives_le {n m : ℕ} (hnm : n ≤ m) {name : N α} {a : α} {ts : List τ}
    (h : G.derives n α name a ts) : G.derives m α name a ts := by
  induction hnm with
  | refl => exact h
  | step _ ih => exact G.derives_succ _ α name a ts ih

/-- At every depth the parser accepts what is derived, and nothing else. -/
theorem parseAll_iff (n : ℕ) (name : N α) (a : α) (ts : List τ) :
    G.parseAll n name ts = some a ↔ G.derives n α name a ts := by
  have hexact := G.exact n α name
  constructor
  · intro h
    unfold parseAll at h
    split at h
    · rename_i a' hparse
      obtain rfl := Option.some.inj h
      obtain ⟨front, hts, hfront⟩ := hexact.sound ts a' [] hparse
      rw [List.append_nil] at hts
      rwa [hts]
    · cases h
  · intro h
    have hparse := hexact.complete a ts [] h rfl
    rw [List.append_nil] at hparse
    unfold parseAll
    rw [hparse]

theorem Language.unique {name : N α} {a b : α} {ts : List τ} (ha : G.Language name a ts)
    (hb : G.Language name b ts) : a = b := by
  obtain ⟨n, ha⟩ := ha
  obtain ⟨m, hb⟩ := hb
  have ha' := (G.parseAll_iff _ name a ts).mpr (G.derives_le (Nat.le_max_left n m) ha)
  have hb' := (G.parseAll_iff _ name b ts).mpr (G.derives_le (Nat.le_max_right n m) hb)
  exact Option.some.inj (ha'.symm.trans hb')

/-- From some depth on, the parser accepts each text of the language with its value. -/
theorem language_iff (name : N α) (a : α) (ts : List τ) :
    G.Language name a ts ↔ ∃ N, ∀ n, N ≤ n → G.parseAll n name ts = some a := by
  constructor
  · rintro ⟨n, h⟩
    exact ⟨n, fun m hm => (G.parseAll_iff m name a ts).mpr (G.derives_le hm h)⟩
  · rintro ⟨n, h⟩
    exact ⟨n, (G.parseAll_iff n name a ts).mp (h n (Nat.le_refl n))⟩

end Grammar

end Sparsam.PredictiveGrammar
