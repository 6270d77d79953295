import Sparsam.AuditReflexivity
import Sparsam.ListPairing
import Sparsam.StringConstants

set_option autoImplicit false

/-!
# The order in which map constants are printed

The entries of a map constant are visited by the addresses of their keys, so
the text of a value depends on its source alone only where the order does not
show: any two entries that can change places have to print alike.
-/
namespace Sparsam.ConstantOrder
open ListPairing ThriftTypes FieldLists ThriftScope SchemaLiteral ClassReferences
open AuditReflexivity RubyStrings RubyReader NumberFormat GeneratedText StringConstants
open DocComments (indent)

/-- The same text at a base type; doubles count by their six digits. -/
def SameLeaf (base : TBase) (v w : ConstValue) : Prop :=
  match base with
  | .TYPE_STRING => v.stringVal = w.stringVal
  | .TYPE_BOOL => v.getInteger.map (fun n => decide (0 < n.toInt)) =
      w.getInteger.map fun n => decide (0 < n.toInt)
  | .TYPE_DOUBLE => renderBaseText .TYPE_DOUBLE v = renderBaseText .TYPE_DOUBLE w
  | .TYPE_VOID => True
  | _ => v.getInteger = w.getInteger

/-- Values of a type that print alike in whatever order their maps are: corresponding
    maps are of one size and every entry of the one prints like every entry of the other. -/
inductive Alike (scopes : String → Scope) : ThriftType → ConstValue → ConstValue → Prop where
  | leaf {t : ThriftType} {v w : ConstValue} {base : TBase} {bin : Bool}
      (h : Expands scopes t (.baseType base bin)) (hleaf : SameLeaf base v w) : Alike scopes t v w
  | enum {t : ThriftType} {v w : ConstValue} {e : TEnum} (h : Expands scopes t (.enum e))
      (hint : v.getInteger = w.getInteger) : Alike scopes t v w
  | struct {t : ThriftType} {v w : ConstValue} {s : TStruct} (h : Expands scopes t (.struct s))
      (hlen : v.mapVal.length = w.mapVal.length)
      (hkeys : ∀ a ∈ v.mapVal, ∀ b ∈ w.mapVal, a.1.stringVal = b.1.stringVal)
      (hvals : ∀ a ∈ v.mapVal, ∀ b ∈ w.mapVal, ∀ m, memberType s a.1.stringVal = some m →
        Alike scopes m a.2 b.2) : Alike scopes t v w
  | map {t key val : ThriftType} {v w : ConstValue} (h : Expands scopes t (.map key val))
      (hlen : v.mapVal.length = w.mapVal.length)
      (hkeys : ∀ a ∈ v.mapVal, ∀ b ∈ w.mapVal, Alike scopes key a.1 b.1)
      (hvals : ∀ a ∈ v.mapVal, ∀ b ∈ w.mapVal, Alike scopes val a.2 b.2) : Alike scopes t v w
  | list {t elem : ThriftType} {v w : ConstValue} (h : Expands scopes t (.list elem))
      (hlen : v.listVal.length = w.listVal.length)
      (helems : ∀ p ∈ v.listVal.zip w.listVal, Alike scopes elem p.1 p.2) : Alike scopes t v w
  | set {t elem : ThriftType} {v w : ConstValue} (h : Expands scopes t (.set elem))
      (hlen : v.listVal.length = w.listVal.length)
      (helems : ∀ p ∈ v.listVal.zip w.listVal, Alike scopes elem p.1 p.2) : Alike scopes t v w

section Texts
variable {scopes : String → Scope} {fuel : ℕ}

theorem renderBaseText_bool (v : ConstValue) : renderBaseText .TYPE_BOOL v =
    (v.getInteger.map fun n => decide (0 < n.toInt)).map booleanText := by
  unfold renderBaseText
  cases v.getInteger <;> rfl

theorem renderBaseText_congr {base : TBase} {v w : ConstValue} (h : SameLeaf base v w) :
    renderBaseText base v = renderBaseText base w := by
  cases base with
  | TYPE_STRING =>
    unfold renderBaseText
    rw [show v.stringVal = w.stringVal from h]
  | TYPE_BOOL =>
    rw [renderBaseText_bool, renderBaseText_bool]
    exact congrArg _ h
  | TYPE_BYTE | TYPE_I16 | TYPE_I32 | TYPE_I64 =>
    have hsame : v.getInteger = w.getInteger := h
    unfold renderBaseText
    rw [hsame]
  | TYPE_DOUBLE => exact h
  | TYPE_VOID => rfl

theorem Reordered.leaf {v v' : ConstValue} (h : Reordered v v') :
    v'.getInteger = v.getInteger ∧ v'.stringVal = v.stringVal ∧
      ∀ base, renderBaseText base v' = renderBaseText base v := by
  cases h
  refine ⟨rfl, rfl, fun base => ?_⟩
  cases base <;> rfl

theorem renderElemsText_congr {t : ThriftType} {depth : ℕ} {xs ys : List ConstValue}
    (h : List.Forall₂ (fun x y => renderConstText scopes fuel depth t x =
      renderConstText scopes fuel depth t y) xs ys) :
    renderElemsText scopes fuel depth t xs = renderElemsText scopes fuel depth t ys := by
  induction h with
  | nil => rfl
  | cons hxy _ ih =>
    unfold renderElemsText
    rw [hxy, ih]

theorem renderEntriesText_congr {key val : ThriftType} {depth : ℕ}
    {es fs : List (ConstValue × ConstValue)}
    (h : List.Forall₂ (fun a b => renderConstText scopes fuel depth key a.1 =
      renderConstText scopes fuel depth key b.1 ∧ renderConstText scopes fuel depth val a.2 =
        renderConstText scopes fuel depth val b.2) es fs) :
    renderEntriesText scopes fuel depth key val es =
      renderEntriesText scopes fuel depth key val fs := by
  induction h with
  | nil => rfl
  | @cons a b es fs hab _ ih =>
    obtain ⟨k, v⟩ := a
    obtain ⟨k', v'⟩ := b
    unfold renderEntriesText
    rw [hab.1, hab.2, ih]

theorem renderFieldsText_congr {s : TStruct} {depth : ℕ} {es fs : List (ConstValue × ConstValue)}
    (h : List.Forall₂ (fun a b => a.1.stringVal = b.1.stringVal ∧
      ∀ m, memberType s a.1.stringVal = some m → renderConstText scopes fuel depth m a.2 =
        renderConstText scopes fuel depth m b.2) es fs) :
    renderFieldsText scopes fuel depth s es = renderFieldsText scopes fuel depth s fs := by
  induction h with
  | nil => rfl
  | @cons a b es fs hab _ ih =>
    obtain ⟨k, v⟩ := a
    obtain ⟨k', v'⟩ := b
    obtain ⟨hkey, hval⟩ := hab
    unfold renderFieldsText
    rw [← show k.stringVal = k'.stringVal from hkey, ih]
    cases hm : memberType s k.stringVal with
    | none => rfl
    | some m =>
      dsimp only
      rw [hval m hm]

/-- The same text in any order of both, at any depth. -/
def SameText (scopes : String → Scope) (fuel : ℕ) (t : ThriftType) (v w : ConstValue) : Prop :=
  ∀ v' w', Reordered v v' → Reordered w w' → ∀ depth,
    renderConstText scopes fuel depth t v' = renderConstText scopes fuel depth t w'

theorem elems_sameText {t : ThriftType} {xs ys xs' ys' : List ConstValue} (depth : ℕ)
    (hlen : xs.length = ys.length)
    (h : ∀ p ∈ xs.zip ys, SameText scopes fuel t p.1 p.2)
    (hx : List.Forall₂ Reordered xs xs') (hy : List.Forall₂ Reordered ys ys') :
    renderElemsText scopes fuel depth t xs' = renderElemsText scopes fuel depth t ys' := by
  refine renderElemsText_congr ?_
  induction hx generalizing ys ys' with
  | nil =>
    obtain rfl := List.length_eq_zero_iff.mp hlen.symm
    cases hy
    exact .nil
  | @cons x x' xs xs' hxx _ ih =>
    cases hy with
    | nil => cases hlen
    | @cons y y' ys ys' hyy hy =>
      refine .cons (h (x, y) (by simp) _ _ hxx hyy depth) ?_
      exact ih (by simpa using hlen) (fun p hp => h p (by simp [hp])) hy

theorem entries_pairwise {es es' es'' fs fs' fs'' : List (ConstValue × ConstValue)}
    (hperm : es.Perm es') (hkeys : List.Forall₂ (fun a b => Reordered a.1 b.1) es' es'')
    (hvals : List.Forall₂ (fun a b => Reordered a.2 b.2) es' es'') (hperm' : fs.Perm fs')
    (hkeys' : List.Forall₂ (fun a b => Reordered a.1 b.1) fs' fs'')
    (hvals' : List.Forall₂ (fun a b => Reordered a.2 b.2) fs' fs'')
    {R : ConstValue × ConstValue → ConstValue × ConstValue → Prop}
    (hlen : es.length = fs.length)
    (hR : ∀ a ∈ es, ∀ b ∈ fs, ∀ a' b', Reordered a.1 a'.1 → Reordered a.2 a'.2 →
      Reordered b.1 b'.1 → Reordered b.2 b'.2 → R a' b') : List.Forall₂ R es'' fs'' := by
  refine forall₂_of_all ?_ fun a' ha b' hb => ?_
  · rw [← hkeys.length_eq, ← hkeys'.length_eq, ← hperm.length_eq, ← hperm'.length_eq]
    exact hlen
  · obtain ⟨a, ha, hak, hav⟩ := mem_of_reordered hperm hkeys hvals ha
    obtain ⟨b, hb, hbk, hbv⟩ := mem_of_reordered hperm' hkeys' hvals' hb
    exact hR a ha b hb a' b' hak hav hbk hbv

theorem Alike.sameText {t : ThriftType} {v w : ConstValue} (h : Alike scopes t v w) :
    SameText scopes fuel t v w := by
  induction v using ConstValue.induct generalizing t w with
  | mk v ihmap ihlist =>
    intro v' w' hv hw depth
    have hvleaf := Reordered.leaf hv
    have hwleaf := Reordered.leaf hw
    obtain ⟨hperm, hkeys, hvals, helems⟩ := hv
    obtain ⟨hperm', hkeys', hvals', helems'⟩ := hw
    unfold renderConstText
    cases hu : getTrueType scopes fuel t with
    | error e => rfl
    | ok u =>
      have hexpands : Expands scopes t u := ⟨fuel, hu⟩
      cases h with
      | leaf h hleaf =>
        obtain rfl := hexpands.unique h
        change renderBaseText _ _ = renderBaseText _ _
        rw [hvleaf.2.2, hwleaf.2.2]
        exact renderBaseText_congr hleaf
      | enum h hint =>
        obtain rfl := hexpands.unique h
        have hsame := (hvleaf.1.trans hint).trans hwleaf.1.symm
        change (do pure (indent depth ++ formatInteger (← ConstValue.getInteger _).toInt)) =
          (do pure (indent depth ++ formatInteger (← ConstValue.getInteger _).toInt) :
            Compile (List Char))
        rw [hsame]
      | struct h hlen hk hval =>
        obtain rfl := hexpands.unique h
        dsimp only [bind, Except.bind]
        rw [renderFieldsText_congr
          (entries_pairwise hperm hkeys hvals hperm' hkeys' hvals' hlen ?_)]
        intro a ha b hb a' b' hak hav hbk hbv
        have hkey : a'.1.stringVal = a.1.stringVal := (Reordered.leaf hak).2.1
        rw [hkey, (Reordered.leaf hbk).2.1]
        exact ⟨hk a ha b hb, fun m hm => (ihmap a ha).2 (hval a ha b hb m hm) _ _ hav hbv _⟩
      | map h hlen hk hval =>
        obtain rfl := hexpands.unique h
        dsimp only [bind, Except.bind]
        rw [renderEntriesText_congr
          (entries_pairwise hperm hkeys hvals hperm' hkeys' hvals' hlen ?_)]
        intro a ha b hb a' b' hak hav hbk hbv
        exact ⟨(ihmap a ha).1 (hk a ha b hb) _ _ hak hbk _,
          (ihmap a ha).2 (hval a ha b hb) _ _ hav hbv _⟩
      | list h hlen hel =>
        obtain rfl := hexpands.unique h
        dsimp only [bind, Except.bind]
        rw [elems_sameText _ hlen (fun p hp => ihlist p.1 (List.of_mem_zip hp).1 (hel p hp)) helems
          helems']
      | set h hlen hel =>
        obtain rfl := hexpands.unique h
        dsimp only [bind, Except.bind]
        rw [elems_sameText _ hlen (fun p hp => ihlist p.1 (List.of_mem_zip hp).1 (hel p hp)) helems
          helems']

end Texts

section Visits
variable (order : List (ConstValue × ConstValue) → List ℕ)

mutual
/-- The value as a run visits it in which the entries of each map stand in this order. -/
def visit : ConstValue → ConstValue
  | ⟨t, es, xs, s, n, d, i, e⟩ =>
    ⟨t, (order es).filterMap ((visitEntries es)[·]?), visitElems xs, s, n, d, i, e⟩

def visitEntries : List (ConstValue × ConstValue) → List (ConstValue × ConstValue)
  | [] => []
  | (k, v) :: es => (visit k, visit v) :: visitEntries es

def visitElems : List ConstValue → List ConstValue
  | [] => []
  | x :: xs => visit x :: visitElems xs
end

/-- Every entry of a map has one place. -/
def IsOrder : Prop := ∀ es, (order es).Perm (List.range es.length)

end Visits

section VisitLemmas
variable {order order' : List (ConstValue × ConstValue) → List ℕ}

theorem visitEntries_eq (es : List (ConstValue × ConstValue)) :
    visitEntries order es = es.map fun e => (visit order e.1, visit order e.2) := by
  induction es with
  | nil => rfl
  | cons e es ih =>
    obtain ⟨k, v⟩ := e
    rw [visitEntries, ih, List.map_cons]

theorem visitElems_eq (xs : List ConstValue) : visitElems order xs = xs.map (visit order) := by
  induction xs with
  | nil => rfl
  | cons x xs ih => rw [visitElems, ih, List.map_cons]

theorem visit_mk (v : ConstValue) : visit order v =
    { v with
      mapVal := ((order v.mapVal).filterMap (v.mapVal[·]?)).map
        fun e => (visit order e.1, visit order e.2)
      listVal := v.listVal.map (visit order) } := by
  obtain ⟨t, es, xs, s, n, d, i, e⟩ := v
  rw [visit, visitEntries_eq, visitElems_eq, List.map_filterMap]
  simp only [List.getElem?_map]

theorem filterMap_range {α : Type} (es : List α) :
    (List.range es.length).filterMap (es[·]?) = es := by
  induction es with
  | nil => rfl
  | cons a es ih =>
    rw [List.length_cons, List.range_succ_eq_map, List.filterMap_cons, List.filterMap_map]
    exact congrArg (a :: ·) ih

def sourceOrder (es : List (ConstValue × ConstValue)) : List ℕ := List.range es.length

theorem isOrder_source : IsOrder sourceOrder := fun _ => .refl _

theorem visit_source (v : ConstValue) : visit sourceOrder v = v := by
  induction v using ConstValue.induct with
  | mk v ihmap ihlist =>
    obtain ⟨t, es, xs, s, n, d, i, e⟩ := v
    rw [visit_mk, sourceOrder, filterMap_range, List.map_congr_left (g := id) fun e he =>
      Prod.ext (ihmap e he).1 (ihmap e he).2, List.map_congr_left (g := id) ihlist, List.map_id,
      List.map_id]

theorem visit_reordered (h : IsOrder order) (v : ConstValue) : Reordered v (visit order v) := by
  induction v using ConstValue.induct with
  | mk v ihmap ihlist =>
    obtain ⟨t, es, xs, s, n, d, i, e⟩ := v
    rw [visit_mk]
    have hperm : es.Perm ((order es).filterMap (es[·]?)) := by
      have hrange := (h es).filterMap (es[·]?)
      rw [filterMap_range] at hrange
      exact hrange.symm
    have hmem : ∀ a ∈ (order es).filterMap (es[·]?), a ∈ es := fun a ha => hperm.mem_iff.mpr ha
    refine .mk hperm ?_ ?_ ?_
    · rw [List.forall₂_map_right_iff, List.forall₂_same]
      exact fun a ha => (ihmap a (hmem a ha)).1
    · rw [List.forall₂_map_right_iff, List.forall₂_same]
      exact fun a ha => (ihmap a (hmem a ha)).2
    · rw [List.forall₂_map_right_iff, List.forall₂_same]
      exact ihlist

theorem entry_sizeOf {es : List (ConstValue × ConstValue)} {a : ConstValue × ConstValue}
    (h : a ∈ es) : sizeOf a.1 < sizeOf es ∧ sizeOf a.2 < sizeOf es := by
  have ha := List.sizeOf_lt_of_mem h
  obtain ⟨k, v⟩ := a
  simp only [Prod.mk.sizeOf_spec] at ha ⊢
  omega

theorem visit_congr {v : ConstValue}
    (h : ∀ es, sizeOf es < sizeOf v → order es = order' es) : visit order v = visit order' v := by
  induction v using ConstValue.induct with
  | mk v ihmap ihlist =>
    obtain ⟨t, es, xs, s, n, d, i, e⟩ := v
    have hes : sizeOf es < sizeOf (ConstValue.mk t es xs s n d i e) := by
      simp only [ConstValue.mk.sizeOf_spec]
      omega
    have hxs : sizeOf xs < sizeOf (ConstValue.mk t es xs s n d i e) := by
      simp only [ConstValue.mk.sizeOf_spec]
      omega
    have hentry : ∀ a ∈ es, (visit order a.1, visit order a.2) =
        (visit order' a.1, visit order' a.2) := by
      intro a ha
      obtain ⟨hk, hv⟩ := entry_sizeOf ha
      rw [(ihmap a ha).1 fun fs hfs => h fs (by omega),
        (ihmap a ha).2 fun fs hfs => h fs (by omega)]
    have helem : ∀ x ∈ xs, visit order x = visit order' x := by
      intro x hx
      have hlt := List.sizeOf_lt_of_mem hx
      exact ihlist x hx fun fs hfs => h fs (by omega)
    rw [visit, visit, visitEntries_eq, visitEntries_eq, visitElems_eq, visitElems_eq, h es hes,
      List.map_congr_left hentry, List.map_congr_left helem]

/-- Some order has a given entry of a map first and leaves what is in it as it is. -/
theorem exists_first (h : IsOrder order) {v : ConstValue} {a : ConstValue × ConstValue}
    (ha : a ∈ v.mapVal) : ∃ order', IsOrder order' ∧
      ∃ rest, (visit order' v).mapVal = (visit order a.1, visit order a.2) :: rest := by
  classical
  obtain ⟨j, hj, rfl⟩ := List.mem_iff_getElem.mp ha
  let first := j :: (List.range v.mapVal.length).erase j
  let order' := fun es => if es = v.mapVal then first else order es
  have hfirst : order' v.mapVal = first := if_pos rfl
  have hother : ∀ es, sizeOf es < sizeOf v.mapVal → order es = order' es := by
    intro es hes
    have hne : es ≠ v.mapVal := by
      rintro rfl
      exact Nat.lt_irrefl _ hes
    exact (if_neg hne).symm
  obtain ⟨hk, hv⟩ := entry_sizeOf ha
  let rest := ((List.range v.mapVal.length).erase j).filterMap (v.mapVal[·]?)
  refine ⟨order', fun es => ?_, rest.map fun e => (visit order' e.1, visit order' e.2), ?_⟩
  · by_cases hes : es = v.mapVal
    · subst hes
      rw [hfirst]
      exact (List.perm_cons_erase (List.mem_range.mpr hj)).symm
    · rw [show order' es = order es from if_neg hes]
      exact h es
  · rw [visit_mk, hfirst, visit_congr fun es hes => hother es (by omega),
      visit_congr (v := v.mapVal[j].2) fun es hes => hother es (by omega)]
    simp [first, rest, hj]

end VisitLemmas

section Rendered
variable {scopes : String → Scope} {fuel : ℕ}

/-- The value is printed and read as the expression. -/
def RendersTo (scopes : String → Scope) (fuel : ℕ) (t : ThriftType) (v : ConstValue) (e : Expr) :
    Prop := ∃ l, renderConstValue scopes fuel t v = .ok l ∧ exprOf l = e

theorem renderElems_iff {t : ThriftType} {xs : List ConstValue} {ls : List Literal}
    (h : renderElems scopes fuel t xs = .ok ls) :
    List.Forall₂ (RendersTo scopes fuel t) xs (exprsOf ls) := by
  induction xs generalizing ls with
  | nil =>
    unfold renderElems at h
    rw [← Except.ok.inj h]
    exact .nil
  | cons x xs ih =>
    unfold renderElems at h
    obtain ⟨l, hl, h⟩ := bind_ok h
    obtain ⟨ls', hls, h⟩ := bind_ok h
    rw [← Except.ok.inj h]
    exact .cons ⟨l, hl, rfl⟩ (ih hls)

theorem renderEntries_iff {key val : ThriftType} {es : List (ConstValue × ConstValue)}
    {ls : List (Literal × Literal)} (h : renderEntries scopes fuel key val es = .ok ls) :
    List.Forall₂ (fun a p => RendersTo scopes fuel key a.1 p.1 ∧ RendersTo scopes fuel val a.2 p.2)
      es (entriesOf ls) := by
  induction es generalizing ls with
  | nil =>
    unfold renderEntries at h
    rw [← Except.ok.inj h]
    exact .nil
  | cons a es ih =>
    obtain ⟨k, v⟩ := a
    unfold renderEntries at h
    obtain ⟨kl, hkl, h⟩ := bind_ok h
    obtain ⟨vl, hvl, h⟩ := bind_ok h
    obtain ⟨ls', hls, h⟩ := bind_ok h
    rw [← Except.ok.inj h]
    exact .cons ⟨⟨kl, hkl, rfl⟩, ⟨vl, hvl, rfl⟩⟩ (ih hls)

theorem renderFields_iff {s : TStruct} {es : List (ConstValue × ConstValue)}
    {ls : List (Literal × Literal)} (h : renderFields scopes fuel s es = .ok ls) :
    List.Forall₂ (fun a p => p.1 = .string '"' (escapeString a.1.stringVal).toList ∧
      ∃ m, memberType s a.1.stringVal = some m ∧ RendersTo scopes fuel m a.2 p.2)
      es (entriesOf ls) := by
  induction es generalizing ls with
  | nil =>
    unfold renderFields at h
    rw [← Except.ok.inj h]
    exact .nil
  | cons a es ih =>
    obtain ⟨k, v⟩ := a
    unfold renderFields at h
    cases hm : memberType s k.stringVal with
    | none =>
      rw [hm] at h
      cases h
    | some m =>
      rw [hm] at h
      obtain ⟨vl, hvl, h⟩ := bind_ok h
      obtain ⟨ls', hls, h⟩ := bind_ok h
      rw [← Except.ok.inj h]
      exact .cons ⟨rfl, m, hm, vl, hvl, rfl⟩ (ih hls)

/-- What the expression of a value of this expanded type looks like. -/
def rendersStep (scopes : String → Scope) (fuel : ℕ) (u : ThriftType) (v : ConstValue) (e : Expr) :
    Prop :=
  match u with
  | .baseType base _ => ∃ l, renderBase base v = .ok l ∧ exprOf l = e
  | .enum _ => ∃ n, v.getInteger = .ok n ∧ e = .word (formatInteger n.toInt)
  | .struct s => ∃ path es, e = .new path es ∧ List.Forall₂
      (fun a p => p.1 = .string '"' (escapeString a.1.stringVal).toList ∧
        ∃ m, memberType s a.1.stringVal = some m ∧ RendersTo scopes fuel m a.2 p.2) v.mapVal es
  | .map key val => ∃ es, e = .hash es ∧ List.Forall₂ (fun a p =>
      RendersTo scopes fuel key a.1 p.1 ∧ RendersTo scopes fuel val a.2 p.2) v.mapVal es
  | .list elem => ∃ es, e = .array es ∧ List.Forall₂ (RendersTo scopes fuel elem) v.listVal es
  | .set elem => ∃ es, e = .set es ∧ List.Forall₂ (RendersTo scopes fuel elem) v.listVal es
  | _ => False

theorem RendersTo.step {t : ThriftType} {v : ConstValue} {e : Expr}
    (h : RendersTo scopes fuel t v e) :
    ∃ u, getTrueType scopes fuel t = .ok u ∧ rendersStep scopes fuel u v e := by
  obtain ⟨vt, es, xs, str, n, d, i, tenum⟩ := v
  obtain ⟨l, h, rfl⟩ := h
  unfold renderConstValue at h
  obtain ⟨u, hu, h⟩ := bind_ok h
  refine ⟨u, hu, ?_⟩
  cases u with
  | baseType base bin => exact ⟨l, h, rfl⟩
  | enum e =>
    obtain ⟨m, hm, h⟩ := bind_ok h
    rw [← Except.ok.inj h]
    exact ⟨m, hm, rfl⟩
  | struct s =>
    obtain ⟨ls, hls, h⟩ := bind_ok h
    rw [← Except.ok.inj h]
    exact ⟨_, _, rfl, renderFields_iff hls⟩
  | map key val =>
    obtain ⟨ls, hls, h⟩ := bind_ok h
    rw [← Except.ok.inj h]
    exact ⟨_, rfl, renderEntries_iff hls⟩
  | list elem =>
    obtain ⟨ls, hls, h⟩ := bind_ok h
    rw [← Except.ok.inj h]
    exact ⟨_, rfl, renderElems_iff hls⟩
  | set elem =>
    obtain ⟨ls, hls, h⟩ := bind_ok h
    rw [← Except.ok.inj h]
    exact ⟨_, rfl, renderElems_iff hls⟩
  | typedef p name t => cases h
  | forwardTypedef p name => cases h

theorem booleanText_injective {a b : Bool} (h : booleanText a = booleanText b) : a = b := by
  revert a b
  decide

theorem sameLeaf_of_render {base : TBase} {v w : ConstValue} {l l' : Literal}
    (hl : renderBase base v = .ok l) (hl' : renderBase base w = .ok l')
    (h : exprOf l = exprOf l') : SameLeaf base v w := by
  have hinteger : (do pure (.int (← v.getInteger).toInt) : Compile Literal) = .ok l →
      (do pure (.int (← w.getInteger).toInt) : Compile Literal) = .ok l' →
        v.getInteger = w.getInteger := by
    intro hl hl'
    obtain ⟨m, hm, hl⟩ := bind_ok hl
    obtain ⟨n, hn, hl'⟩ := bind_ok hl'
    rw [← Except.ok.inj hl, ← Except.ok.inj hl'] at h
    have hmn := Int64.toInt_inj.mp (formatInteger_injective (Expr.word.inj h))
    rw [hm, hn, hmn]
  have hdouble : ∀ {u : ConstValue} {k : Literal}, renderBase .TYPE_DOUBLE u = .ok k →
      ∃ text, renderBaseText .TYPE_DOUBLE u = .ok text ∧ exprOf k = .word text := by
    intro u k hk
    unfold renderBase at hk
    unfold renderBaseText
    dsimp only at hk ⊢
    split at hk
    · rename_i hint
      obtain ⟨n, hn, hk⟩ := bind_ok hk
      rw [if_pos hint, hn, ← Except.ok.inj hk]
      exact ⟨_, rfl, rfl⟩
    · rename_i hint
      rw [if_neg hint, ← Except.ok.inj hk]
      exact ⟨_, rfl, rfl⟩
  cases base with
  | TYPE_VOID => trivial
  | TYPE_STRING =>
    rw [← Except.ok.inj hl, ← Except.ok.inj hl'] at h
    exact escapeString_injective (Expr.string.inj h).2
  | TYPE_BOOL =>
    obtain ⟨m, hm, hl⟩ := bind_ok hl
    obtain ⟨n, hn, hl'⟩ := bind_ok hl'
    rw [← Except.ok.inj hl, ← Except.ok.inj hl'] at h
    have hmn := booleanText_injective (Expr.word.inj h)
    unfold SameLeaf
    rw [hm, hn]
    exact congrArg Except.ok hmn
  | TYPE_BYTE | TYPE_I16 | TYPE_I32 | TYPE_I64 => exact hinteger hl hl'
  | TYPE_DOUBLE =>
    obtain ⟨text, htext, hword⟩ := hdouble hl
    obtain ⟨text', htext', hword'⟩ := hdouble hl'
    rw [hword, hword'] at h
    unfold SameLeaf
    rw [htext, htext', Expr.word.inj h]

def AlwaysSame (scopes : String → Scope) (fuel : ℕ) (t : ThriftType) (v w : ConstValue) : Prop :=
  ∀ order order', IsOrder order → IsOrder order' → ∃ e,
    RendersTo scopes fuel t (visit order v) e ∧ RendersTo scopes fuel t (visit order' w) e

theorem visit_stringVal (order : List (ConstValue × ConstValue) → List ℕ) (v : ConstValue) :
    (visit order v).stringVal = v.stringVal := by
  rw [visit_mk]

theorem visit_listVal (order : List (ConstValue × ConstValue) → List ℕ) (v : ConstValue) :
    (visit order v).listVal = v.listVal.map (visit order) := by
  rw [visit_mk]

theorem AlwaysSame.step {t : ThriftType} {v w : ConstValue} (h : AlwaysSame scopes fuel t v w) :
    ∃ u, getTrueType scopes fuel t = .ok u ∧ ∀ order order', IsOrder order → IsOrder order' →
      ∃ e, rendersStep scopes fuel u (visit order v) e ∧
        rendersStep scopes fuel u (visit order' w) e := by
  obtain ⟨e, hv, -⟩ := h _ _ isOrder_source isOrder_source
  obtain ⟨u, hu, -⟩ := hv.step
  refine ⟨u, hu, fun order order' ho ho' => ?_⟩
  obtain ⟨e, hv, hw⟩ := h order order' ho ho'
  obtain ⟨u₁, hu₁, hv⟩ := hv.step
  obtain ⟨u₂, hu₂, hw⟩ := hw.step
  obtain rfl := Except.ok.inj (hu.symm.trans hu₁)
  obtain rfl := Except.ok.inj (hu.symm.trans hu₂)
  exact ⟨e, hv, hw⟩

theorem elems_alwaysSame {t : ThriftType} {v w : ConstValue}
    (h : ∀ order order', IsOrder order → IsOrder order' → ∃ es,
      List.Forall₂ (RendersTo scopes fuel t) (visit order v).listVal es ∧
        List.Forall₂ (RendersTo scopes fuel t) (visit order' w).listVal es) :
    v.listVal.length = w.listVal.length ∧
      ∀ p ∈ v.listVal.zip w.listVal, AlwaysSame scopes fuel t p.1 p.2 := by
  have hpair : ∀ order order', IsOrder order → IsOrder order' →
      v.listVal.length = w.listVal.length ∧ ∀ p ∈ v.listVal.zip w.listVal, ∃ e,
        RendersTo scopes fuel t (visit order p.1) e ∧
          RendersTo scopes fuel t (visit order' p.2) e := by
    intro order order' ho ho'
    obtain ⟨es, hv, hw⟩ := h order order' ho ho'
    rw [visit_listVal, List.forall₂_map_left_iff] at hv hw
    exact mem_zip_of_forall₂ hv hw
  refine ⟨(hpair _ _ isOrder_source isOrder_source).1, fun p hp order order' ho ho' => ?_⟩
  exact (hpair order order' ho ho').2 p hp

theorem visit_length {order : List (ConstValue × ConstValue) → List ℕ} (h : IsOrder order)
    (v : ConstValue) : (visit order v).mapVal.length = v.mapVal.length := by
  have hreordered := visit_reordered h v
  generalize visit order v = v' at hreordered
  obtain ⟨hperm, hkeys, -, -⟩ := hreordered
  exact (hperm.length_eq.trans hkeys.length_eq).symm

theorem entries_alwaysSame {R : ConstValue × ConstValue → Expr × Expr → Prop} {v w : ConstValue}
    (h : ∀ order order', IsOrder order → IsOrder order' → ∃ es,
      List.Forall₂ R (visit order v).mapVal es ∧ List.Forall₂ R (visit order' w).mapVal es) :
    v.mapVal.length = w.mapVal.length ∧ ∀ a ∈ v.mapVal, ∀ b ∈ w.mapVal, ∀ order order',
      IsOrder order → IsOrder order' → ∃ p, R (visit order a.1, visit order a.2) p ∧
        R (visit order' b.1, visit order' b.2) p := by
  constructor
  · obtain ⟨es, hv, hw⟩ := h _ _ isOrder_source isOrder_source
    rw [← visit_length isOrder_source v, ← visit_length isOrder_source w, hv.length_eq,
      hw.length_eq]
  · intro a ha b hb order order' ho ho'
    obtain ⟨first, hfirst, rest, hrest⟩ := exists_first ho ha
    obtain ⟨first', hfirst', rest', hrest'⟩ := exists_first ho' hb
    obtain ⟨es, hv, hw⟩ := h first first' hfirst hfirst'
    rw [hrest] at hv
    rw [hrest'] at hw
    cases hv with
    | @cons _ p _ _ hp _ => exact ⟨p, hp, (List.forall₂_cons.mp hw).1⟩

theorem AlwaysSame.alike {t : ThriftType} {v w : ConstValue} (h : AlwaysSame scopes fuel t v w) :
    Alike scopes t v w := by
  induction v using ConstValue.induct generalizing t w with
  | mk v ihmap ihlist =>
    obtain ⟨u, hu, hstep⟩ := h.step
    have hexpands : Expands scopes t u := ⟨fuel, hu⟩
    obtain ⟨e, hv, hw⟩ := hstep _ _ isOrder_source isOrder_source
    rw [visit_source] at hv hw
    cases u with
    | baseType base bin =>
      obtain ⟨l, hl, rfl⟩ := hv
      obtain ⟨l', hl', heq⟩ := hw
      exact .leaf hexpands (sameLeaf_of_render hl hl' heq.symm)
    | enum e =>
      obtain ⟨m, hm, rfl⟩ := hv
      obtain ⟨n, hn, heq⟩ := hw
      have hmn := Int64.toInt_inj.mp (formatInteger_injective (Expr.word.inj heq))
      exact .enum hexpands (by rw [hm, hn, hmn])
    | struct s =>
      have hentries := entries_alwaysSame (v := v) (w := w) fun order order' ho ho' => by
        obtain ⟨e, ⟨path, es, rfl, hes⟩, ⟨path', es', heq, hes'⟩⟩ := hstep order order' ho ho'
        obtain ⟨-, rfl⟩ := Expr.new.inj heq
        exact ⟨es, hes, hes'⟩
      obtain ⟨hlen, hpair⟩ := hentries
      have hkeys : ∀ a ∈ v.mapVal, ∀ b ∈ w.mapVal, a.1.stringVal = b.1.stringVal := by
        intro a ha b hb
        obtain ⟨p, ⟨hkey, -⟩, hkey', -⟩ := hpair a ha b hb _ _ isOrder_source isOrder_source
        rw [hkey, visit_stringVal, visit_stringVal] at hkey'
        exact escapeString_injective (Expr.string.inj hkey').2
      refine .struct hexpands hlen hkeys fun a ha b hb m hm => (ihmap a ha).2 ?_
      intro order order' ho ho'
      obtain ⟨p, ⟨-, m₁, hm₁, hvalue⟩, -, m₂, hm₂, hvalue'⟩ := hpair a ha b hb order order' ho ho'
      rw [visit_stringVal] at hm₁ hm₂
      rw [← hkeys a ha b hb] at hm₂
      obtain rfl := Option.some.inj (hm.symm.trans hm₁)
      obtain rfl := Option.some.inj (hm.symm.trans hm₂)
      exact ⟨p.2, hvalue, hvalue'⟩
    | map key val =>
      have hentries := entries_alwaysSame (v := v) (w := w) fun order order' ho ho' => by
        obtain ⟨e, ⟨es, rfl, hes⟩, ⟨es', heq, hes'⟩⟩ := hstep order order' ho ho'
        obtain rfl := Expr.hash.inj heq
        exact ⟨es, hes, hes'⟩
      obtain ⟨hlen, hpair⟩ := hentries
      refine .map hexpands hlen (fun a ha b hb => (ihmap a ha).1 ?_)
        fun a ha b hb => (ihmap a ha).2 ?_
      · intro order order' ho ho'
        obtain ⟨p, hp, hp'⟩ := hpair a ha b hb order order' ho ho'
        exact ⟨p.1, hp.1, hp'.1⟩
      · intro order order' ho ho'
        obtain ⟨p, hp, hp'⟩ := hpair a ha b hb order order' ho ho'
        exact ⟨p.2, hp.2, hp'.2⟩
    | list elem =>
      have helems := elems_alwaysSame (v := v) (w := w) fun order order' ho ho' => by
        obtain ⟨e, ⟨es, rfl, hes⟩, ⟨es', heq, hes'⟩⟩ := hstep order order' ho ho'
        obtain rfl := Expr.array.inj heq
        exact ⟨es, hes, hes'⟩
      exact .list hexpands helems.1 fun p hp =>
        ihlist p.1 (List.of_mem_zip hp).1 (helems.2 p hp)
    | set elem =>
      have helems := elems_alwaysSame (v := v) (w := w) fun order order' ho ho' => by
        obtain ⟨e, ⟨es, rfl, hes⟩, ⟨es', heq, hes'⟩⟩ := hstep order order' ho ho'
        obtain rfl := Expr.set.inj heq
        exact ⟨es, hes, hes'⟩
      exact .set hexpands helems.1 fun p hp =>
        ihlist p.1 (List.of_mem_zip hp).1 (helems.2 p hp)
    | typedef p name t => exact hv.elim
    | forwardTypedef p name => exact hv.elim

theorem valueRefers_of_reordered {t : ThriftType} {v v' : ConstValue} {s : TStruct}
    (h : ValueRefers scopes t v' s) (hv : Reordered v v') : ValueRefers scopes t v s := by
  induction h generalizing v with
  | struct h => exact .struct h
  | member h hmem hm _ ih =>
    obtain ⟨hperm, hkeys, hvals, -⟩ := hv
    obtain ⟨a, ha, hak, hav⟩ := mem_of_reordered hperm hkeys hvals hmem
    refine .member h ha ?_ (ih hav)
    rw [← (Reordered.leaf hak).2.1]
    exact hm
  | listElem h hmem _ ih =>
    obtain ⟨-, -, -, helems⟩ := hv
    obtain ⟨x, hx, hr⟩ := mem_of_forall₂ helems hmem
    exact .listElem h hx (ih hr)
  | setElem h hmem _ ih =>
    obtain ⟨-, -, -, helems⟩ := hv
    obtain ⟨x, hx, hr⟩ := mem_of_forall₂ helems hmem
    exact .setElem h hx (ih hr)
  | key h hmem _ ih =>
    obtain ⟨hperm, hkeys, hvals, -⟩ := hv
    obtain ⟨a, ha, hak, -⟩ := mem_of_reordered hperm hkeys hvals hmem
    exact .key h ha (ih hak)
  | value h hmem _ ih =>
    obtain ⟨hperm, hkeys, hvals, -⟩ := hv
    obtain ⟨a, ha, -, hav⟩ := mem_of_reordered hperm hkeys hvals hmem
    exact .value h ha (ih hav)

theorem rendersTo_of_text {depth : ℕ} {t : ThriftType} {v : ConstValue} {text : List Char}
    (h : renderConstText scopes fuel depth t v = .ok text)
    (hnames : ∀ s, ValueRefers scopes t v s → IsPath (classPath s)) :
    ∃ e, RendersTo scopes fuel t v e ∧ parse text = some e := by
  have hboth := @renderConstText_spells scopes fuel v depth t
  rw [h] at hboth
  obtain ⟨l, hl, hspells⟩ := hboth.ok_left
  refine ⟨exprOf l, ⟨l, hl, rfl⟩, (hspells fun path hpath => ?_).parse⟩
  obtain ⟨s, hs, rfl⟩ := (renderConstValue_emits v t l hl path).mp hpath
  exact hnames s hs

/-- In all runs the text is the same, that of the source's order, exactly when the value
    is alike with itself. A run takes the entries of each map in some order; maps that
    share their keys in one run are in one order. -/
theorem text_fixed_iff_alike {depth : ℕ} {t : ThriftType} {v : ConstValue} {text : List Char}
    (h : renderConstText scopes fuel depth t v = .ok text)
    (hnames : ∀ s, ValueRefers scopes t v s → IsPath (classPath s)) {runs : ConstValue → Prop}
    (hvisits : ∀ order, IsOrder order → runs (visit order v))
    (hruns : ∀ v', runs v' → Reordered v v') :
    (∀ v₁ v₂, runs v₁ → runs v₂ → renderConstText scopes fuel depth t v₁ =
      renderConstText scopes fuel depth t v₂) ↔ Alike scopes t v v := by
  constructor
  · intro hsame
    have hsource : ∀ order, IsOrder order →
        renderConstText scopes fuel depth t (visit order v) = .ok text := by
      intro order ho
      have hrun := hvisits _ isOrder_source
      rw [visit_source] at hrun
      rw [hsame _ v (hvisits order ho) hrun, h]
    have hrefers : ∀ order, IsOrder order → ∀ s, ValueRefers scopes t (visit order v) s →
        IsPath (classPath s) :=
      fun order ho s hs => hnames s (valueRefers_of_reordered hs (visit_reordered ho v))
    have halways : AlwaysSame scopes fuel t v v := by
      intro order order' ho ho'
      obtain ⟨e, he, hread⟩ := rendersTo_of_text (hsource order ho) (hrefers order ho)
      obtain ⟨e', he', hread'⟩ := rendersTo_of_text (hsource order' ho') (hrefers order' ho')
      obtain rfl := Option.some.inj (hread.symm.trans hread')
      exact ⟨e, he, he'⟩
    exact halways.alike
  · intro halike v₁ v₂ h₁ h₂
    exact halike.sameText v₁ v₂ (hruns v₁ h₁) (hruns v₂ h₂) depth

end Rendered

def intMap : ThriftType := .map (.baseType .TYPE_I32 false) (.baseType .TYPE_I32 false)

def intConst (n : Int64) : ConstValue := { valType := .CV_INTEGER, intVal := n }

def mapConst (es : List (Int64 × Int64)) : ConstValue :=
  { valType := .CV_MAP, mapVal := es.map fun e => (intConst e.1, intConst e.2) }

theorem single_render : renderConstText noScopes 1 0 intMap (mapConst [(1, 2)]) =
    .ok "\x7b\n  1 => 2,\n\x7d".toList := rfl

theorem single_fixed : (∀ v₁ v₂, Reordered (mapConst [(1, 2)]) v₁ →
    Reordered (mapConst [(1, 2)]) v₂ →
      renderConstText noScopes 1 0 intMap v₁ = renderConstText noScopes 1 0 intMap v₂) ↔
    Alike noScopes intMap (mapConst [(1, 2)]) (mapConst [(1, 2)]) :=
  text_fixed_iff_alike single_render
    (fun s hs => by
      have hclasses := @renderConstValue_emits noScopes 1 (mapConst [(1, 2)]) intMap _ rfl
        (classPath s)
      cases hclasses.mpr ⟨s, hs, rfl⟩)
    (fun _ ho => visit_reordered ho _) fun _ h => h

/-- Two entries with one key change places: the other value is the last. -/
theorem repeatedKey_moves : Reordered (mapConst [(1, 2), (1, 3)]) (mapConst [(1, 3), (1, 2)]) ∧
    renderConstText noScopes 1 0 intMap (mapConst [(1, 2), (1, 3)]) =
      .ok "\x7b\n  1 => 2,\n  1 => 3,\n\x7d".toList ∧
    renderConstText noScopes 1 0 intMap (mapConst [(1, 3), (1, 2)]) =
      .ok "\x7b\n  1 => 3,\n  1 => 2,\n\x7d".toList ∧
    renderConstText noScopes 1 0 intMap (mapConst [(1, 2), (1, 3)]) ≠
      renderConstText noScopes 1 0 intMap (mapConst [(1, 3), (1, 2)]) := by
  have hfirst : renderConstText noScopes 1 0 intMap (mapConst [(1, 2), (1, 3)]) =
      .ok "\x7b\n  1 => 2,\n  1 => 3,\n\x7d".toList := rfl
  have hsecond : renderConstText noScopes 1 0 intMap (mapConst [(1, 3), (1, 2)]) =
      .ok "\x7b\n  1 => 3,\n  1 => 2,\n\x7d".toList := rfl
  refine ⟨.mk (.swap _ _ []) ?_ ?_ .nil, hfirst, hsecond, ?_⟩
  · exact List.forall₂_same.mpr fun e _ => .refl e.1
  · exact List.forall₂_same.mpr fun e _ => .refl e.2
  · rw [hfirst, hsecond]
    intro h
    have htexts := Except.ok.inj h
    revert htexts
    decide

end Sparsam.ConstantOrder
