import Sparsam.FittingLiterals
import Sparsam.ListPairing
import Sparsam.PrintedAlike

set_option autoImplicit false

/-!
# The places in a constant

A constant is walked twice, along the declared type when it is resolved and
along the expanded one when it is printed. A `Spot` is a place that both walks
have in common; the first may have stopped before it.
-/
namespace Sparsam.ConstantPlaces
open ListPairing ThriftTypes ThriftScope SchemaLiteral ClassReferences FittingLiterals PrintedAlike

def literalElems : Literal → List Literal
  | .array xs | .set xs => xs
  | _ => []

def literalEntries : Literal → List (Literal × Literal)
  | .hash es | .new _ es => es
  | _ => []

/-- A place in a constant: its value as it was parsed, as it was resolved and as it is
    printed. `resolve_const_value` comes there with `resolvedAt`, if it does. -/
structure Spot where
  resolvedAt : Option ThriftType
  type : ThriftType
  source : ConstValue
  value : ConstValue
  literal : Literal

def elemType : Option ThriftType → Option ThriftType
  | some (.list e) | some (.set e) => some e
  | _ => none

def keyType : Option ThriftType → Option ThriftType
  | some (.map k _) => some k
  | _ => none

def valueType (key : String) : Option ThriftType → Option ThriftType
  | some (.map _ v) => some v
  | some (.struct s) => if s.isXception then none else (s.getFieldByName key).map TFieldOf.type
  | _ => none

/-- The second place is directly in the first one. -/
inductive Part (scopes : String → Scope) : Spot → Spot → Prop where
  | elem {p : Spot} {e : ThriftType} {i : ℕ} {y y' : ConstValue} {m : Literal}
      (h : Expands scopes p.type (.list e) ∨ Expands scopes p.type (.set e))
      (hs : p.source.listVal[i]? = some y) (hv : p.value.listVal[i]? = some y')
      (hl : (literalElems p.literal)[i]? = some m) :
      Part scopes p ⟨elemType p.resolvedAt, e, y, y', m⟩
  | key {p : Spot} {k v : ThriftType} {i : ℕ} {a b : ConstValue × ConstValue}
      {m : Literal × Literal} (h : Expands scopes p.type (.map k v))
      (hs : p.source.mapVal[i]? = some a) (hv : p.value.mapVal[i]? = some b)
      (hl : (literalEntries p.literal)[i]? = some m) :
      Part scopes p ⟨keyType p.resolvedAt, k, a.1, b.1, m.1⟩
  | value {p : Spot} {k v : ThriftType} {i : ℕ} {a b : ConstValue × ConstValue}
      {m : Literal × Literal} (h : Expands scopes p.type (.map k v))
      (hs : p.source.mapVal[i]? = some a) (hv : p.value.mapVal[i]? = some b)
      (hl : (literalEntries p.literal)[i]? = some m) :
      Part scopes p ⟨valueType a.1.stringVal p.resolvedAt, v, a.2, b.2, m.2⟩
  | member {p : Spot} {s : TStruct} {f : ThriftType} {i : ℕ} {a b : ConstValue × ConstValue}
      {m : Literal × Literal} (h : Expands scopes p.type (.struct s))
      (hs : p.source.mapVal[i]? = some a) (hv : p.value.mapVal[i]? = some b)
      (hl : (literalEntries p.literal)[i]? = some m) (hf : memberType s b.1.stringVal = some f) :
      Part scopes p ⟨valueType a.1.stringVal p.resolvedAt, f, a.2, b.2, m.2⟩

section Places
variable {scopes scopes' : String → Scope} {fuel fuel' : ℕ} {scope : Scope}

def Resolved (scopes : String → Scope) (fuel : ℕ) (scope : Scope) (r : Option ThriftType)
    (cv cv' : ConstValue) : Prop :=
  match r with
  | some t => resolveConstValue scopes fuel scope t cv = .ok cv'
  | none => cv' = cv

/-- What holds of every place in a constant that was resolved and printed. -/
structure Runs (scopes scopes' : String → Scope) (fuel fuel' : ℕ) (scope : Scope) (p : Spot) :
    Prop where
  parsed : Parsed p.source
  resolved : Resolved scopes fuel scope p.resolvedAt p.source p.value
  printed : renderConstValue scopes' fuel' p.type p.value = .ok p.literal

theorem resolveElems_forall₂ {t : ThriftType} {xs xs' : List ConstValue}
    (h : resolveElems scopes fuel scope t xs = .ok xs') :
    List.Forall₂ (Resolved scopes fuel scope (some t)) xs xs' := by
  induction xs generalizing xs' with
  | nil =>
    unfold resolveElems at h
    rw [← Except.ok.inj h]
    exact .nil
  | cons x xs ih =>
    unfold resolveElems at h
    obtain ⟨y, hy, h⟩ := bind_ok h
    obtain ⟨ys, hys, h⟩ := bind_ok h
    rw [← Except.ok.inj h]
    exact .cons hy (ih hys)

theorem resolveEntries_forall₂ {k v : ThriftType} {es es' : List (ConstValue × ConstValue)}
    (h : resolveEntries scopes fuel scope k v es = .ok es') :
    List.Forall₂ (fun a b => Resolved scopes fuel scope (some k) a.1 b.1 ∧
      Resolved scopes fuel scope (some v) a.2 b.2) es es' := by
  induction es generalizing es' with
  | nil =>
    unfold resolveEntries at h
    rw [← Except.ok.inj h]
    exact .nil
  | cons e es ih =>
    obtain ⟨x, y⟩ := e
    unfold resolveEntries at h
    obtain ⟨x', hx, h⟩ := bind_ok h
    obtain ⟨y', hy, h⟩ := bind_ok h
    obtain ⟨rest, hrest, h⟩ := bind_ok h
    rw [← Except.ok.inj h]
    exact .cons ⟨hx, hy⟩ (ih hrest)

theorem resolveFields_forall₂ {s : TStruct} {es es' : List (ConstValue × ConstValue)}
    (h : resolveFields scopes fuel scope s es = .ok es') :
    List.Forall₂ (fun a b => b.1 = a.1 ∧ Resolved scopes fuel scope
      ((s.getFieldByName a.1.stringVal).map TFieldOf.type) a.2 b.2) es es' := by
  induction es generalizing es' with
  | nil =>
    unfold resolveFields at h
    rw [← Except.ok.inj h]
    exact .nil
  | cons e es ih =>
    obtain ⟨x, y⟩ := e
    unfold resolveFields at h
    cases hf : s.getFieldByName x.stringVal with
    | none =>
      rw [hf] at h
      cases h
    | some f =>
      rw [hf] at h
      obtain ⟨y', hy, h⟩ := bind_ok h
      obtain ⟨rest, hrest, h⟩ := bind_ok h
      rw [← Except.ok.inj h]
      refine .cons ⟨rfl, ?_⟩ (ih hrest)
      rw [hf]
      exact hy

theorem resolveSingle_keeps {t : ThriftType} {cv cv' : ConstValue}
    (hv : cv.valType ≠ .CV_IDENTIFIER) (h : resolveSingle scopes fuel scope t cv = .ok cv') :
    cv'.listVal = cv.listVal ∧ cv'.mapVal = cv.mapVal := by
  unfold resolveSingle at h
  rw [if_neg hv] at h
  cases t with
  | enum e =>
    obtain ⟨n, -, h⟩ := bind_ok h
    cases hn : e.getConstantByValue n.toInt with
    | none =>
      rw [hn] at h
      cases h
    | some val =>
      rw [hn] at h
      rw [← Except.ok.inj h]
      exact ⟨rfl, rfl⟩
  | _ =>
    rw [← Except.ok.inj h]
    exact ⟨rfl, rfl⟩

theorem not_identifier_of_elem {cv y : ConstValue} (hcv : Parsed cv) {i : ℕ}
    (hs : cv.listVal[i]? = some y) : cv.valType ≠ .CV_IDENTIFIER := by
  intro hv
  obtain ⟨-, -, hlist, -, -, -⟩ := hcv
  rw [hlist (by rw [hv]; decide)] at hs
  simp at hs

theorem not_identifier_of_entry {cv : ConstValue} {a : ConstValue × ConstValue} (hcv : Parsed cv)
    {i : ℕ} (hs : cv.mapVal[i]? = some a) : cv.valType ≠ .CV_IDENTIFIER := by
  intro hv
  obtain ⟨-, hmap, -, -, -, -⟩ := hcv
  rw [hmap (by rw [hv]; decide)] at hs
  simp at hs

theorem Resolved.elem {r : Option ThriftType} {cv cv' y y' : ConstValue} {i : ℕ} (hcv : Parsed cv)
    (h : Resolved scopes fuel scope r cv cv') (hs : cv.listVal[i]? = some y)
    (hv : cv'.listVal[i]? = some y') : Resolved scopes fuel scope (elemType r) y y' := by
  have hsame : cv'.listVal = cv.listVal → y' = y := fun heq => by
    rw [heq, hs] at hv
    exact (Option.some.inj hv).symm
  have hsingle : ∀ {t : ThriftType}, resolveSingle scopes fuel scope t cv = .ok cv' → y' = y :=
    fun h => hsame (resolveSingle_keeps (not_identifier_of_elem hcv hs) h).1
  cases r with
  | none => exact hsame (congrArg ConstValue.listVal h)
  | some t =>
    change resolveConstValue scopes fuel scope t cv = .ok cv' at h
    obtain ⟨vt, es, xs, str, n, d, id, e⟩ := cv
    unfold resolveConstValue at h
    cases t with
    | list elem =>
      obtain ⟨xs', hxs, h⟩ := bind_ok h
      rw [← Except.ok.inj h] at hv
      exact forall₂_getElem (resolveElems_forall₂ hxs) hs hv
    | set elem =>
      obtain ⟨xs', hxs, h⟩ := bind_ok h
      rw [← Except.ok.inj h] at hv
      exact forall₂_getElem (resolveElems_forall₂ hxs) hs hv
    | map k v =>
      obtain ⟨es', -, h⟩ := bind_ok h
      exact hsame (congrArg ConstValue.listVal (Except.ok.inj h)).symm
    | struct s =>
      dsimp only at h
      split at h
      · exact hsingle h
      · obtain ⟨es', -, h⟩ := bind_ok h
        exact hsame (congrArg ConstValue.listVal (Except.ok.inj h)).symm
    | _ => exact hsingle h

theorem Resolved.entry {r : Option ThriftType} {cv cv' : ConstValue}
    {a b : ConstValue × ConstValue} {i : ℕ} (hcv : Parsed cv)
    (h : Resolved scopes fuel scope r cv cv') (hs : cv.mapVal[i]? = some a)
    (hv : cv'.mapVal[i]? = some b) : Resolved scopes fuel scope (keyType r) a.1 b.1 ∧
      Resolved scopes fuel scope (valueType a.1.stringVal r) a.2 b.2 := by
  have hsame : cv'.mapVal = cv.mapVal → b.1 = a.1 ∧ b.2 = a.2 := fun heq => by
    rw [heq, hs] at hv
    cases hv
    exact ⟨rfl, rfl⟩
  have hsingle : ∀ {t : ThriftType}, resolveSingle scopes fuel scope t cv = .ok cv' →
      b.1 = a.1 ∧ b.2 = a.2 :=
    fun h => hsame (resolveSingle_keeps (not_identifier_of_entry hcv hs) h).2
  cases r with
  | none => exact hsame (congrArg ConstValue.mapVal h)
  | some t =>
    change resolveConstValue scopes fuel scope t cv = .ok cv' at h
    obtain ⟨vt, es, xs, str, n, d, id, e⟩ := cv
    unfold resolveConstValue at h
    cases t with
    | list elem =>
      obtain ⟨xs', -, h⟩ := bind_ok h
      exact hsame (congrArg ConstValue.mapVal (Except.ok.inj h)).symm
    | set elem =>
      obtain ⟨xs', -, h⟩ := bind_ok h
      exact hsame (congrArg ConstValue.mapVal (Except.ok.inj h)).symm
    | map k v =>
      obtain ⟨es', hes, h⟩ := bind_ok h
      rw [← Except.ok.inj h] at hv
      exact forall₂_getElem (resolveEntries_forall₂ hes) hs hv
    | struct s =>
      dsimp only at h
      split at h
      · rename_i hx
        rw [valueType, if_pos hx]
        exact hsingle h
      · rename_i hx
        obtain ⟨es', hes, h⟩ := bind_ok h
        rw [← Except.ok.inj h] at hv
        rw [valueType, if_neg hx]
        exact forall₂_getElem (resolveFields_forall₂ hes) hs hv
    | _ => exact hsingle h

theorem renderElems_forall₂ {t : ThriftType} {xs : List ConstValue} {ls : List Literal}
    (h : renderElems scopes fuel t xs = .ok ls) :
    List.Forall₂ (fun x l => renderConstValue scopes fuel t x = .ok l) xs ls := by
  induction xs generalizing ls with
  | nil =>
    unfold renderElems at h
    rw [← Except.ok.inj h]
    exact .nil
  | cons x xs ih =>
    unfold renderElems at h
    obtain ⟨l, hl, h⟩ := bind_ok h
    obtain ⟨rest, hrest, h⟩ := bind_ok h
    rw [← Except.ok.inj h]
    exact .cons hl (ih hrest)

theorem renderEntries_forall₂ {k v : ThriftType} {es : List (ConstValue × ConstValue)}
    {ls : List (Literal × Literal)} (h : renderEntries scopes fuel k v es = .ok ls) :
    List.Forall₂ (fun a m => renderConstValue scopes fuel k a.1 = .ok m.1 ∧
      renderConstValue scopes fuel v a.2 = .ok m.2) es ls := by
  induction es generalizing ls with
  | nil =>
    unfold renderEntries at h
    rw [← Except.ok.inj h]
    exact .nil
  | cons e es ih =>
    obtain ⟨x, y⟩ := e
    unfold renderEntries at h
    obtain ⟨kl, hkl, h⟩ := bind_ok h
    obtain ⟨vl, hvl, h⟩ := bind_ok h
    obtain ⟨rest, hrest, h⟩ := bind_ok h
    rw [← Except.ok.inj h]
    exact .cons ⟨hkl, hvl⟩ (ih hrest)

theorem renderFields_forall₂ {s : TStruct} {es : List (ConstValue × ConstValue)}
    {ls : List (Literal × Literal)} (h : renderFields scopes fuel s es = .ok ls) :
    List.Forall₂ (fun a m => ∀ f, memberType s a.1.stringVal = some f →
      renderConstValue scopes fuel f a.2 = .ok m.2) es ls := by
  induction es generalizing ls with
  | nil =>
    unfold renderFields at h
    rw [← Except.ok.inj h]
    exact .nil
  | cons e es ih =>
    obtain ⟨x, y⟩ := e
    unfold renderFields at h
    cases hm : memberType s x.stringVal with
    | none =>
      rw [hm] at h
      cases h
    | some m =>
      rw [hm] at h
      obtain ⟨vl, hvl, h⟩ := bind_ok h
      obtain ⟨rest, hrest, h⟩ := bind_ok h
      rw [← Except.ok.inj h]
      refine .cons (fun f hf => ?_) (ih hrest)
      rw [hm] at hf
      rwa [← Option.some.inj hf]

theorem Runs.part {p q : Spot} (hp : Runs scopes scopes' fuel fuel' scope p)
    (hpart : Part scopes' p q) : Runs scopes scopes' fuel fuel' scope q := by
  obtain ⟨hparsed, hresolved, hprinted⟩ := hp
  obtain ⟨-, -, -, hpk, hpv, hpx⟩ := id hparsed
  cases hpart with
  | elem h hs hv hl =>
    refine ⟨hpx _ (List.mem_of_getElem? hs), hresolved.elem hparsed hs hv, ?_⟩
    rcases h with h | h
    · obtain ⟨xs, hxs, hlit⟩ := prints_of_expands h hprinted
      rw [hlit] at hl
      exact forall₂_getElem (renderElems_forall₂ hxs) hv hl
    · obtain ⟨xs, hxs, hlit⟩ := prints_of_expands h hprinted
      rw [hlit] at hl
      exact forall₂_getElem (renderElems_forall₂ hxs) hv hl
  | key h hs hv hl =>
    refine ⟨hpk _ (List.mem_of_getElem? hs), (hresolved.entry hparsed hs hv).1, ?_⟩
    obtain ⟨es, hes, hlit⟩ := prints_of_expands h hprinted
    rw [hlit] at hl
    exact (forall₂_getElem (renderEntries_forall₂ hes) hv hl).1
  | value h hs hv hl =>
    refine ⟨hpv _ (List.mem_of_getElem? hs), (hresolved.entry hparsed hs hv).2, ?_⟩
    obtain ⟨es, hes, hlit⟩ := prints_of_expands h hprinted
    rw [hlit] at hl
    exact (forall₂_getElem (renderEntries_forall₂ hes) hv hl).2
  | member h hs hv hl hf =>
    refine ⟨hpv _ (List.mem_of_getElem? hs), (hresolved.entry hparsed hs hv).2, ?_⟩
    obtain ⟨es, hes, hlit⟩ := prints_of_expands h hprinted
    rw [hlit] at hl
    exact forall₂_getElem (renderFields_forall₂ hes) hv hl _ hf

theorem Runs.inside {p q : Spot} (hp : Runs scopes scopes' fuel fuel' scope p)
    (hinside : Relation.ReflTransGen (Part scopes') p q) :
    Runs scopes scopes' fuel fuel' scope q := by
  induction hinside with
  | refl => exact hp
  | tail _ hpart ih => exact ih.part hpart

end Places

end Sparsam.ConstantPlaces
