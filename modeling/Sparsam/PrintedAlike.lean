import Sparsam.ClassReferences
import Sparsam.GeneratedText

set_option autoImplicit false

/-!
# Values that print alike at two types

The kind of what is printed comes from the type alone, so two types print a
value alike where their kinds agree, and those of all that is in it.
-/
namespace Sparsam.PrintedAlike
open ThriftTypes ThriftScope RubyNames SchemaLiteral ClassReferences RubyReader
open NumberFormat GeneratedText

/-- What an expression is, whatever is in it. -/
inductive Kind where
  | string
  | bool
  | number
  | array
  | set
  | hash
  | new (path : List String)
  | none
deriving DecidableEq

def literalKind : Literal → Kind
  | .percentQ _ => .string
  | .bool _ => .bool
  | .int _ | .double _ => .number
  | .array _ => .array
  | .set _ => .set
  | .hash _ => .hash
  | .new path _ => .new path
  | _ => .none

def typeKind : ThriftType → Kind
  | .baseType base _ =>
    match base with
    | .TYPE_STRING => .string
    | .TYPE_BOOL => .bool
    | .TYPE_VOID => .none
    | _ => .number
  | .enum _ => .number
  | .struct s => .new (constantPath s.program s.name)
  | .map _ _ => .hash
  | .list _ => .array
  | .set _ => .set
  | .typedef _ _ _ | .forwardTypedef _ _ => .none

def Whole (u : ThriftType) : Prop := typeKind u = .number ∧ ∀ bin, u ≠ .baseType .TYPE_DOUBLE bin

/-- The digits that are printed at a type of numbers. -/
def numberText (u : ThriftType) (v : ConstValue) : Compile (List Char) :=
  match u with
  | .baseType base _ => renderBaseText base v
  | _ => do pure (formatInteger (← v.getInteger).toInt)

section Kinds

theorem number_cases {u : ThriftType} (h : typeKind u = .number) :
    Whole u ∨ ∃ bin, u = .baseType .TYPE_DOUBLE bin := by
  by_cases hdouble : ∃ bin, u = .baseType .TYPE_DOUBLE bin
  · exact .inr hdouble
  · exact .inl ⟨h, fun bin hu => hdouble ⟨bin, hu⟩⟩

theorem numberText_whole {u : ThriftType} (h : Whole u) (v : ConstValue) :
    numberText u v = (do pure (formatInteger (← v.getInteger).toInt)) := by
  obtain ⟨hkind, hdouble⟩ := h
  cases u with
  | baseType base bin =>
    cases base with
    | TYPE_DOUBLE => exact absurd rfl (hdouble bin)
    | TYPE_STRING => cases hkind
    | TYPE_BOOL => cases hkind
    | TYPE_VOID => cases hkind
    | _ => rfl
  | _ => rfl

theorem exprOf_number {l : Literal} (h : literalKind l = .number) :
    ∃ text, exprOf l = .word text ∧ StartsNumber text := by
  cases l with
  | int n => exact ⟨_, rfl, startsNumber_formatInteger n⟩
  | double d => exact ⟨_, rfl, startsNumber_formatDouble d⟩
  | _ => cases h

theorem literalKind_congr {l l' : Literal} (h : exprOf l = exprOf l') :
    literalKind l = literalKind l' := by
  have hbool : ∀ {b : Bool} {k : Literal},
      literalKind k = .number → exprOf (.bool b) ≠ exprOf k := by
    intro b k hk heq
    obtain ⟨text, htext, hstarts⟩ := exprOf_number hk
    rw [htext] at heq
    rw [← Expr.word.inj heq] at hstarts
    revert hstarts
    cases b <;> decide
  have hpath : ∀ {path path' : List String}, path.map String.toList = path'.map String.toList →
      path = path' := fun heq =>
    Function.Injective.list_map (fun _ _ hs => String.toList_inj.mp hs) heq
  cases l with
  | bool b =>
    cases l' with
    | int n => exact absurd h (hbool rfl)
    | double d => exact absurd h (hbool rfl)
    | _ => first | rfl | cases h
  | int n =>
    cases l' with
    | bool b => exact absurd h.symm (hbool rfl)
    | _ => first | rfl | cases h
  | double d =>
    cases l' with
    | bool b => exact absurd h.symm (hbool rfl)
    | _ => first | rfl | cases h
  | new path es =>
    cases l' with
    | new path' es' => rw [literalKind, literalKind, hpath (Expr.new.inj h).1]
    | _ => cases h
  | _ => cases l' <;> first | rfl | cases h

end Kinds

section Prints
variable {scopes : String → Scope} {fuel : ℕ}

def printsStep (scopes : String → Scope) (fuel : ℕ) (u : ThriftType) (v : ConstValue)
    (l : Literal) : Prop :=
  match u with
  | .baseType base _ => renderBase base v = .ok l
  | .enum _ => ∃ n, v.getInteger = .ok n ∧ l = .int n.toInt
  | .struct s => ∃ es, renderFields scopes fuel s v.mapVal = .ok es ∧
      l = .new (constantPath s.program s.name) es
  | .map key val => ∃ es, renderEntries scopes fuel key val v.mapVal = .ok es ∧ l = .hash es
  | .list elem => ∃ xs, renderElems scopes fuel elem v.listVal = .ok xs ∧ l = .array xs
  | .set elem => ∃ xs, renderElems scopes fuel elem v.listVal = .ok xs ∧ l = .set xs
  | .typedef _ _ _ | .forwardTypedef _ _ => False

theorem prints_step {t : ThriftType} {v : ConstValue} {l : Literal}
    (h : renderConstValue scopes fuel t v = .ok l) :
    ∃ u, Expands scopes t u ∧ printsStep scopes fuel u v l := by
  obtain ⟨vt, es, xs, str, n, d, i, tenum⟩ := v
  unfold renderConstValue at h
  obtain ⟨u, hu, h⟩ := bind_ok h
  refine ⟨u, ⟨fuel, hu⟩, ?_⟩
  cases u with
  | baseType base bin => exact h
  | enum e =>
    obtain ⟨m, hm, h⟩ := bind_ok h
    exact ⟨m, hm, (Except.ok.inj h).symm⟩
  | struct s =>
    obtain ⟨ls, hls, h⟩ := bind_ok h
    exact ⟨ls, hls, (Except.ok.inj h).symm⟩
  | map key val =>
    obtain ⟨ls, hls, h⟩ := bind_ok h
    exact ⟨ls, hls, (Except.ok.inj h).symm⟩
  | list elem =>
    obtain ⟨ls, hls, h⟩ := bind_ok h
    exact ⟨ls, hls, (Except.ok.inj h).symm⟩
  | set elem =>
    obtain ⟨ls, hls, h⟩ := bind_ok h
    exact ⟨ls, hls, (Except.ok.inj h).symm⟩
  | typedef p name t => cases h
  | forwardTypedef p name => cases h

theorem prints_of_expands {t u : ThriftType} {v : ConstValue} {l : Literal}
    (hu : Expands scopes t u) (h : renderConstValue scopes fuel t v = .ok l) :
    printsStep scopes fuel u v l := by
  obtain ⟨u', hu', h⟩ := prints_step h
  rwa [hu.unique hu']

theorem literalKind_of_prints {u : ThriftType} {v : ConstValue} {l : Literal}
    (h : printsStep scopes fuel u v l) : literalKind l = typeKind u := by
  cases u with
  | baseType base bin =>
    have hinteger : (do pure (.int (← v.getInteger).toInt) : Compile Literal) = .ok l →
        literalKind l = .number := by
      intro h
      obtain ⟨n, -, h⟩ := bind_ok h
      rw [← Except.ok.inj h]
      rfl
    cases base with
    | TYPE_VOID => cases h
    | TYPE_STRING =>
      rw [← Except.ok.inj h]
      rfl
    | TYPE_BOOL =>
      obtain ⟨n, -, h⟩ := bind_ok h
      rw [← Except.ok.inj h]
      rfl
    | TYPE_DOUBLE =>
      unfold printsStep renderBase at h
      dsimp only at h
      split at h
      · exact hinteger h
      · rw [← Except.ok.inj h]
        rfl
    | _ => exact hinteger h
  | enum e =>
    obtain ⟨n, -, rfl⟩ := h
    rfl
  | struct s =>
    obtain ⟨es, -, rfl⟩ := h
    rfl
  | map key val =>
    obtain ⟨es, -, rfl⟩ := h
    rfl
  | list elem =>
    obtain ⟨xs, -, rfl⟩ := h
    rfl
  | set elem =>
    obtain ⟨xs, -, rfl⟩ := h
    rfl
  | typedef p name t => exact h.elim
  | forwardTypedef p name => exact h.elim

theorem number_prints {u : ThriftType} {v : ConstValue} {l : Literal} (hu : typeKind u = .number)
    (h : printsStep scopes fuel u v l) :
    ∃ text, numberText u v = .ok text ∧ exprOf l = .word text := by
  rcases number_cases hu with hwhole | ⟨bin, rfl⟩
  · rw [numberText_whole hwhole]
    have hinteger : ∃ n, v.getInteger = .ok n ∧ l = .int n.toInt := by
      cases u with
      | baseType base bin =>
        cases base with
        | TYPE_DOUBLE => exact absurd rfl (hwhole.2 bin)
        | TYPE_STRING => cases hu
        | TYPE_BOOL => cases hu
        | TYPE_VOID => cases hu
        | _ =>
          obtain ⟨n, hn, h⟩ := bind_ok h
          exact ⟨n, hn, (Except.ok.inj h).symm⟩
      | enum e => exact h
      | _ => cases hu
    obtain ⟨n, hn, rfl⟩ := hinteger
    rw [hn]
    exact ⟨_, rfl, rfl⟩
  · unfold printsStep renderBase at h
    unfold numberText renderBaseText
    dsimp only at h ⊢
    split at h
    · rename_i hint
      obtain ⟨n, hn, h⟩ := bind_ok h
      rw [if_pos hint, hn, ← Except.ok.inj h]
      exact ⟨_, rfl, rfl⟩
    · rename_i hint
      rw [if_neg hint, ← Except.ok.inj h]
      exact ⟨_, rfl, rfl⟩

end Prints

/-- The same digits at both types: an integer, types that print alike, or a double
    whose digits happen to be those of the integer. -/
def SameNumber (u u' : ThriftType) (v : ConstValue) : Prop :=
  v.valType = .CV_INTEGER ∨ (Whole u ↔ Whole u') ∨
    ∃ n, v.getInteger = .ok n ∧ formatInteger n.toInt = formatDouble v.doubleVal

/-- A value prints alike at both types. -/
inductive SameAt (scopes : String → Scope) : ThriftType → ThriftType → ConstValue → Prop where
  | leaf {t t' u u' : ThriftType} {v : ConstValue} (h : Expands scopes t u)
      (h' : Expands scopes t' u') (hkind : typeKind u' = typeKind u)
      (hleaf : typeKind u = .string ∨ typeKind u = .bool) : SameAt scopes t t' v
  | number {t t' u u' : ThriftType} {v : ConstValue} (h : Expands scopes t u)
      (h' : Expands scopes t' u') (hu : typeKind u = .number) (hu' : typeKind u' = .number)
      (hsame : SameNumber u u' v) : SameAt scopes t t' v
  | struct {t t' : ThriftType} {s s' : TStruct} {v : ConstValue} (h : Expands scopes t (.struct s))
      (h' : Expands scopes t' (.struct s'))
      (hpath : constantPath s.program s.name = constantPath s'.program s'.name)
      (hvals : ∀ e ∈ v.mapVal, ∀ m m', memberType s e.1.stringVal = some m →
        memberType s' e.1.stringVal = some m' → SameAt scopes m m' e.2) : SameAt scopes t t' v
  | map {t t' key key' val val' : ThriftType} {v : ConstValue} (h : Expands scopes t (.map key val))
      (h' : Expands scopes t' (.map key' val'))
      (hkeys : ∀ e ∈ v.mapVal, SameAt scopes key key' e.1)
      (hvals : ∀ e ∈ v.mapVal, SameAt scopes val val' e.2) : SameAt scopes t t' v
  | list {t t' elem elem' : ThriftType} {v : ConstValue} (h : Expands scopes t (.list elem))
      (h' : Expands scopes t' (.list elem'))
      (helems : ∀ x ∈ v.listVal, SameAt scopes elem elem' x) : SameAt scopes t t' v
  | set {t t' elem elem' : ThriftType} {v : ConstValue} (h : Expands scopes t (.set elem))
      (h' : Expands scopes t' (.set elem'))
      (helems : ∀ x ∈ v.listVal, SameAt scopes elem elem' x) : SameAt scopes t t' v

section Same
variable {scopes : String → Scope} {fuel : ℕ}

/-- The values that print at both types print alike exactly where they are the same. -/
def SameWhenPrinted (scopes : String → Scope) (fuel : ℕ) (v : ConstValue) : Prop :=
  ∀ t t' l l', renderConstValue scopes fuel t v = .ok l →
    renderConstValue scopes fuel t' v = .ok l' → (exprOf l = exprOf l' ↔ SameAt scopes t t' v)

theorem elems_same {t t' : ThriftType} {xs : List ConstValue} {ls ls' : List Literal}
    (ih : ∀ x ∈ xs, SameWhenPrinted scopes fuel x) (h : renderElems scopes fuel t xs = .ok ls)
    (h' : renderElems scopes fuel t' xs = .ok ls') :
    exprsOf ls = exprsOf ls' ↔ ∀ x ∈ xs, SameAt scopes t t' x := by
  induction xs generalizing ls ls' with
  | nil =>
    unfold renderElems at h h'
    rw [← Except.ok.inj h, ← Except.ok.inj h']
    simp
  | cons x xs ihxs =>
    unfold renderElems at h h'
    obtain ⟨l, hl, h⟩ := bind_ok h
    obtain ⟨rest, hrest, h⟩ := bind_ok h
    obtain ⟨l', hl', h'⟩ := bind_ok h'
    obtain ⟨rest', hrest', h'⟩ := bind_ok h'
    rw [← Except.ok.inj h, ← Except.ok.inj h', exprsOf, exprsOf, List.cons.injEq,
      List.forall_mem_cons, ih x (by simp) t t' l l' hl hl',
      ihxs (fun y hy => ih y (by simp [hy])) hrest hrest']

theorem entries_same {key key' val val' : ThriftType} {es : List (ConstValue × ConstValue)}
    {ls ls' : List (Literal × Literal)}
    (ih : ∀ e ∈ es, SameWhenPrinted scopes fuel e.1 ∧ SameWhenPrinted scopes fuel e.2)
    (h : renderEntries scopes fuel key val es = .ok ls)
    (h' : renderEntries scopes fuel key' val' es = .ok ls') :
    entriesOf ls = entriesOf ls' ↔
      (∀ e ∈ es, SameAt scopes key key' e.1) ∧ ∀ e ∈ es, SameAt scopes val val' e.2 := by
  induction es generalizing ls ls' with
  | nil =>
    unfold renderEntries at h h'
    rw [← Except.ok.inj h, ← Except.ok.inj h']
    simp
  | cons e es ihes =>
    obtain ⟨k, v⟩ := e
    unfold renderEntries at h h'
    obtain ⟨kl, hkl, h⟩ := bind_ok h
    obtain ⟨vl, hvl, h⟩ := bind_ok h
    obtain ⟨rest, hrest, h⟩ := bind_ok h
    obtain ⟨kl', hkl', h'⟩ := bind_ok h'
    obtain ⟨vl', hvl', h'⟩ := bind_ok h'
    obtain ⟨rest', hrest', h'⟩ := bind_ok h'
    obtain ⟨ihk, ihv⟩ := ih (k, v) (by simp)
    rw [← Except.ok.inj h, ← Except.ok.inj h', entriesOf, entriesOf, List.cons.injEq,
      Prod.mk.injEq, List.forall_mem_cons, List.forall_mem_cons, ihk _ _ _ _ hkl hkl',
      ihv _ _ _ _ hvl hvl', ihes (fun e he => ih e (by simp [he])) hrest hrest']
    exact and_and_and_comm

theorem fields_same {s s' : TStruct} {es : List (ConstValue × ConstValue)}
    {ls ls' : List (Literal × Literal)} (ih : ∀ e ∈ es, SameWhenPrinted scopes fuel e.2)
    (h : renderFields scopes fuel s es = .ok ls) (h' : renderFields scopes fuel s' es = .ok ls') :
    entriesOf ls = entriesOf ls' ↔ ∀ e ∈ es, ∀ m m', memberType s e.1.stringVal = some m →
      memberType s' e.1.stringVal = some m' → SameAt scopes m m' e.2 := by
  induction es generalizing ls ls' with
  | nil =>
    unfold renderFields at h h'
    rw [← Except.ok.inj h, ← Except.ok.inj h']
    simp
  | cons e es ihes =>
    obtain ⟨k, v⟩ := e
    unfold renderFields at h h'
    cases hm : memberType s k.stringVal with
    | none =>
      rw [hm] at h
      cases h
    | some m =>
      cases hm' : memberType s' k.stringVal with
      | none =>
        rw [hm'] at h'
        cases h'
      | some m' =>
        rw [hm] at h
        rw [hm'] at h'
        obtain ⟨vl, hvl, h⟩ := bind_ok h
        obtain ⟨rest, hrest, h⟩ := bind_ok h
        obtain ⟨vl', hvl', h'⟩ := bind_ok h'
        obtain ⟨rest', hrest', h'⟩ := bind_ok h'
        have hval := ih (k, v) (by simp) m m' vl vl' hvl hvl'
        rw [← Except.ok.inj h, ← Except.ok.inj h', entriesOf, entriesOf, List.cons.injEq,
          Prod.mk.injEq, List.forall_mem_cons, ihes (fun e he => ih e (by simp [he])) hrest hrest',
          hval]
        simp [hm, hm']

theorem mixed_same {v : ConstValue} {text text' : List Char}
    (h : (do pure (formatInteger (← v.getInteger).toInt) : Compile (List Char)) = .ok text)
    (h' : renderBaseText .TYPE_DOUBLE v = .ok text') :
    text = text' ↔ v.valType = .CV_INTEGER ∨
      ∃ n, v.getInteger = .ok n ∧ formatInteger n.toInt = formatDouble v.doubleVal := by
  unfold renderBaseText at h'
  dsimp only at h'
  split at h'
  · rename_i hint
    exact iff_of_true (Except.ok.inj (h.symm.trans h')) (.inl hint)
  · rename_i hint
    obtain ⟨n, hn, h⟩ := bind_ok h
    rw [← Except.ok.inj h, ← Except.ok.inj h']
    constructor
    · exact fun heq => .inr ⟨n, hn, heq⟩
    · rintro (hv | ⟨m, hm, heq⟩)
      · exact absurd hv hint
      · rw [hn] at hm
        rw [Except.ok.inj hm]
        exact heq

theorem not_whole_double (bin : Bool) : ¬ Whole (.baseType .TYPE_DOUBLE bin) :=
  fun h => h.2 bin rfl

theorem number_same {u u' : ThriftType} {v : ConstValue} {text text' : List Char}
    (hu : typeKind u = .number) (hu' : typeKind u' = .number) (h : numberText u v = .ok text)
    (h' : numberText u' v = .ok text') : text = text' ↔ SameNumber u u' v := by
  unfold SameNumber
  rcases number_cases hu with hwhole | ⟨bin, rfl⟩ <;>
    rcases number_cases hu' with hwhole' | ⟨bin', rfl⟩
  · rw [numberText_whole hwhole] at h
    rw [numberText_whole hwhole'] at h'
    exact iff_of_true (Except.ok.inj (h.symm.trans h')) (.inr (.inl (iff_of_true hwhole hwhole')))
  · rw [numberText_whole hwhole] at h
    rw [mixed_same h h']
    simp [hwhole, not_whole_double]
  · rw [numberText_whole hwhole'] at h'
    rw [eq_comm, mixed_same h' h]
    simp [hwhole', not_whole_double]
  · exact iff_of_true (Except.ok.inj (h.symm.trans h'))
      (.inr (.inl (iff_of_false (not_whole_double bin) (not_whole_double bin'))))

theorem string_prints {u : ThriftType} {v : ConstValue} {l : Literal} (hu : typeKind u = .string)
    (h : printsStep scopes fuel u v l) : l = .percentQ (escapeString v.stringVal) := by
  cases u with
  | baseType base bin =>
    cases base with
    | TYPE_STRING => exact (Except.ok.inj h).symm
    | _ => cases hu
  | _ => cases hu

theorem bool_prints {u : ThriftType} {v : ConstValue} {l : Literal} (hu : typeKind u = .bool)
    (h : printsStep scopes fuel u v l) :
    ∃ n, v.getInteger = .ok n ∧ l = .bool (decide (0 < n.toInt)) := by
  cases u with
  | baseType base bin =>
    cases base with
    | TYPE_BOOL =>
      obtain ⟨n, hn, h⟩ := bind_ok h
      exact ⟨n, hn, (Except.ok.inj h).symm⟩
    | _ => cases hu
  | _ => cases hu

theorem leaf_same {u u' : ThriftType} {v : ConstValue} {l l' : Literal}
    (hkind : typeKind u' = typeKind u) (hleaf : typeKind u = .string ∨ typeKind u = .bool)
    (h : printsStep scopes fuel u v l) (h' : printsStep scopes fuel u' v l') : l = l' := by
  rcases hleaf with hu | hu
  · rw [string_prints hu h, string_prints (hkind.trans hu) h']
  · obtain ⟨n, hn, rfl⟩ := bool_prints hu h
    obtain ⟨n', hn', rfl⟩ := bool_prints (hkind.trans hu) h'
    rw [hn] at hn'
    rw [Except.ok.inj hn']

theorem sameAt_of_prints {v : ConstValue} {t t' u u' : ThriftType} {l l' : Literal}
    (ihmap : ∀ e ∈ v.mapVal, SameWhenPrinted scopes fuel e.1 ∧ SameWhenPrinted scopes fuel e.2)
    (ihlist : ∀ x ∈ v.listVal, SameWhenPrinted scopes fuel x) (hu : Expands scopes t u)
    (hu' : Expands scopes t' u') (h : printsStep scopes fuel u v l)
    (h' : printsStep scopes fuel u' v l') (heq : exprOf l = exprOf l') : SameAt scopes t t' v := by
  have hkind : typeKind u' = typeKind u := by
    rw [← literalKind_of_prints h, ← literalKind_of_prints h', literalKind_congr heq]
  have hnumber : typeKind u = .number → SameAt scopes t t' v := by
    intro hnum
    obtain ⟨text, htext, hl⟩ := number_prints hnum h
    obtain ⟨text', htext', hl'⟩ := number_prints (hkind.trans hnum) h'
    rw [hl, hl'] at heq
    exact .number hu hu' hnum (hkind.trans hnum)
      ((number_same hnum (hkind.trans hnum) htext htext').mp (Expr.word.inj heq))
  cases u with
  | baseType base bin =>
    cases base with
    | TYPE_VOID => cases h
    | TYPE_STRING => exact .leaf hu hu' hkind (.inl rfl)
    | TYPE_BOOL => exact .leaf hu hu' hkind (.inr rfl)
    | _ => exact hnumber rfl
  | enum e => exact hnumber rfl
  | struct s =>
    cases u' with
    | struct s' =>
      obtain ⟨es, hes, rfl⟩ := h
      obtain ⟨es', hes', rfl⟩ := h'
      exact .struct hu hu' (Kind.new.inj hkind).symm
        ((fields_same (fun e he => (ihmap e he).2) hes hes').mp (Expr.new.inj heq).2)
    | baseType base bin => cases base <;> cases hkind
    | _ => cases hkind
  | map key val =>
    cases u' with
    | map key' val' =>
      obtain ⟨es, hes, rfl⟩ := h
      obtain ⟨es', hes', rfl⟩ := h'
      obtain ⟨hkeys, hvals⟩ := (entries_same ihmap hes hes').mp (Expr.hash.inj heq)
      exact .map hu hu' hkeys hvals
    | baseType base bin => cases base <;> cases hkind
    | _ => cases hkind
  | list elem =>
    cases u' with
    | list elem' =>
      obtain ⟨xs, hxs, rfl⟩ := h
      obtain ⟨xs', hxs', rfl⟩ := h'
      exact .list hu hu' ((elems_same ihlist hxs hxs').mp (Expr.array.inj heq))
    | baseType base bin => cases base <;> cases hkind
    | _ => cases hkind
  | set elem =>
    cases u' with
    | set elem' =>
      obtain ⟨xs, hxs, rfl⟩ := h
      obtain ⟨xs', hxs', rfl⟩ := h'
      exact .set hu hu' ((elems_same ihlist hxs hxs').mp (Expr.set.inj heq))
    | baseType base bin => cases base <;> cases hkind
    | _ => cases hkind
  | typedef p name t => exact h.elim
  | forwardTypedef p name => exact h.elim

theorem prints_of_sameAt {v : ConstValue} {t t' : ThriftType} {l l' : Literal}
    (ihmap : ∀ e ∈ v.mapVal, SameWhenPrinted scopes fuel e.1 ∧ SameWhenPrinted scopes fuel e.2)
    (ihlist : ∀ x ∈ v.listVal, SameWhenPrinted scopes fuel x)
    (hl : renderConstValue scopes fuel t v = .ok l)
    (hl' : renderConstValue scopes fuel t' v = .ok l') (hsame : SameAt scopes t t' v) :
    exprOf l = exprOf l' := by
  cases hsame with
  | leaf hu hu' hkind hleaf =>
    rw [leaf_same hkind hleaf (prints_of_expands hu hl) (prints_of_expands hu' hl')]
  | number hu hu' hnum hnum' hsame =>
    obtain ⟨text, htext, hword⟩ := number_prints hnum (prints_of_expands hu hl)
    obtain ⟨text', htext', hword'⟩ := number_prints hnum' (prints_of_expands hu' hl')
    rw [hword, hword', (number_same hnum hnum' htext htext').mpr hsame]
  | struct hu hu' hpath hvals =>
    obtain ⟨es, hes, rfl⟩ := prints_of_expands hu hl
    obtain ⟨es', hes', rfl⟩ := prints_of_expands hu' hl'
    rw [exprOf, exprOf, hpath, (fields_same (fun e he => (ihmap e he).2) hes hes').mpr hvals]
  | map hu hu' hkeys hvals =>
    obtain ⟨es, hes, rfl⟩ := prints_of_expands hu hl
    obtain ⟨es', hes', rfl⟩ := prints_of_expands hu' hl'
    rw [exprOf, exprOf, (entries_same ihmap hes hes').mpr ⟨hkeys, hvals⟩]
  | list hu hu' helems =>
    obtain ⟨xs, hxs, rfl⟩ := prints_of_expands hu hl
    obtain ⟨xs', hxs', rfl⟩ := prints_of_expands hu' hl'
    rw [exprOf, exprOf, (elems_same ihlist hxs hxs').mpr helems]
  | set hu hu' helems =>
    obtain ⟨xs, hxs, rfl⟩ := prints_of_expands hu hl
    obtain ⟨xs', hxs', rfl⟩ := prints_of_expands hu' hl'
    rw [exprOf, exprOf, (elems_same ihlist hxs hxs').mpr helems]

theorem sameAt_iff (v : ConstValue) : SameWhenPrinted scopes fuel v := by
  induction v using ConstValue.induct with
  | mk v ihmap ihlist =>
    intro t t' l l' hl hl'
    obtain ⟨u, hu, h⟩ := prints_step hl
    obtain ⟨u', hu', h'⟩ := prints_step hl'
    exact ⟨sameAt_of_prints ihmap ihlist hu hu' h h', prints_of_sameAt ihmap ihlist hl hl'⟩

end Same

end Sparsam.PrintedAlike
