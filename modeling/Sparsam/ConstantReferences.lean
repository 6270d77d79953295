import Sparsam.ConstantPlaces
import Sparsam.StringConstants

set_option autoImplicit false

/-!
# References to constants

`resolve_const_value` looks at the declared type before it looks at the value,
so an identifier is replaced only where that type is no container, and only by
constants of some types. `Transparent` says which references are printed like
the constant they name.
-/
namespace Sparsam.ConstantReferences
open ThriftTypes ThriftScope RubyNames SchemaLiteral ClassReferences FittingLiterals RubyReader
open NumberFormat GeneratedText PrintedAlike ConstantPlaces
open StringConstants (escapeString_injective)

/-- The value of a constant whose type expands to `w` is put in the identifier's place. -/
def Copied (r : Option ThriftType) (w : ThriftType) : Prop :=
  (∃ t, r = some t ∧ Single t) ∧
    match w with
    | .baseType _ _ | .map _ _ | .list _ => True
    | _ => False

def CopyStep (w : ThriftType) (x v y : ConstValue) : Prop :=
  match w with
  | .baseType base _ =>
    match base with
    | .TYPE_STRING => y = x.setString v.stringVal
    | .TYPE_DOUBLE => y = x.setDouble v.doubleVal
    | .TYPE_VOID => False
    | _ => ∃ n, v.getInteger = .ok n ∧ y = x.setInteger n
  | .map _ _ => y = { x with valType := .CV_MAP, mapVal := v.mapVal }
  | .list _ => y = { x with valType := .CV_LIST, listVal := v.listVal }
  | _ => False

/-- The digits printed for a copied double: at a type of integers the identifier's own number
    is read, which was never set. -/
def copiedDigits (u : ThriftType) (x v : ConstValue) : List Char :=
  match u with
  | .baseType .TYPE_DOUBLE _ => formatDouble v.doubleVal
  | _ => formatInteger x.intVal.toInt

/-- A copy is printed like the constant. An integer constant of type double has no double to
    copy; there, and at a type of integers, only chance makes the digits equal. -/
def CopySame (scopes : String → Scope) (u w : ThriftType) (x v : ConstValue) : Prop :=
  match u, w with
  | .map k val, .map k' val' =>
    (∀ e ∈ v.mapVal, SameAt scopes k k' e.1) ∧ ∀ e ∈ v.mapVal, SameAt scopes val val' e.2
  | .list e, .list e' => ∀ y ∈ v.listVal, SameAt scopes e e' y
  | u, .baseType .TYPE_DOUBLE _ => (¬ Whole u ∧ v.valType ≠ .CV_INTEGER) ∨
      numberText w v = .ok (copiedDigits u x v)
  | _, _ => True

/-- An identifier left in its place is printed as nothing, or as a double that was never set. -/
def LeftSame (w : ThriftType) (x v : ConstValue) : Prop :=
  match typeKind w with
  | .string => v.stringVal = ""
  | .array | .set => v.listVal = []
  | .hash | .new _ => v.mapVal = []
  | .number => numberText w v = .ok (formatDouble x.doubleVal)
  | .bool | .none => False

/-- The identifier `x`, resolved at `r` and printed at `t`, is printed like the constant that
    it names, of the expanded type `w` and the value `v`. -/
def Transparent (scopes : String → Scope) (r : Option ThriftType) (t : ThriftType)
    (x : ConstValue) (w : ThriftType) (v : ConstValue) : Prop :=
  ∃ u, Expands scopes t u ∧ typeKind u = typeKind w ∧
    ((Copied r w ∧ CopySame scopes u w x v) ∨ (¬ Copied r w ∧ LeftSame w x v))

section References
variable {scopes scopes' : String → Scope} {fuel fuel' : ℕ} {scope : Scope}

theorem resolveIdentifier_step {x y : ConstValue} {c : TConst} {w : ThriftType}
    (hmap : x.mapVal = []) (hlist : x.listVal = [])
    (hc : scope.getConstant x.identifierVal = some c) (hw : Expands scopes c.type w)
    (h : resolveIdentifier scopes fuel scope x = .ok y) :
    CopyStep w x c.value y ∨ ((¬ ∃ t, Copied (some t) w) ∧ y = x) := by
  unfold resolveIdentifier at h
  rw [hc] at h
  obtain ⟨w', hw', h⟩ := bind_ok h
  obtain rfl := hw.unique ⟨fuel, hw'⟩
  cases w with
  | baseType base bin =>
    left
    cases base with
    | TYPE_VOID => cases h
    | TYPE_STRING => exact (Except.ok.inj h).symm
    | TYPE_DOUBLE => exact (Except.ok.inj h).symm
    | _ =>
      obtain ⟨n, hn, h⟩ := bind_ok h
      exact ⟨n, hn, (Except.ok.inj h).symm⟩
  | map k v =>
    left
    rw [CopyStep, ← Except.ok.inj h, hmap]
    rfl
  | list e =>
    left
    rw [CopyStep, ← Except.ok.inj h, hlist]
    rfl
  | _ => exact .inr ⟨fun ⟨_, _, hcopied⟩ => hcopied, (Except.ok.inj h).symm⟩

theorem reference_value {r : Option ThriftType} {x y : ConstValue} {c : TConst} {w : ThriftType}
    (hx : Parsed x) (hv : x.valType = .CV_IDENTIFIER) (henum : ∀ e, r ≠ some (.enum e))
    (hc : scope.getConstant x.identifierVal = some c) (hw : Expands scopes c.type w)
    (h : Resolved scopes fuel scope r x y) :
    (Copied r w ∧ CopyStep w x c.value y) ∨ (¬ Copied r w ∧ y = x) := by
  obtain ⟨-, hmap, hlist, -, -, -⟩ := hx
  replace hmap := hmap (by rw [hv]; decide)
  replace hlist := hlist (by rw [hv]; decide)
  have hleft : (∀ t, r = some t → ¬ Single t) → y = x →
      (Copied r w ∧ CopyStep w x c.value y) ∨ (¬ Copied r w ∧ y = x) :=
    fun hr hy => .inr ⟨fun ⟨⟨t, ht, hsingle⟩, _⟩ => hr t ht hsingle, hy⟩
  have hsingle : ∀ {t}, r = some t → Single t → resolveSingle scopes fuel scope t x = .ok y →
      (Copied r w ∧ CopyStep w x c.value y) ∨ (¬ Copied r w ∧ y = x) := by
    intro t hr ht h
    have hid : resolveIdentifier scopes fuel scope x = .ok y := by
      unfold resolveSingle at h
      rw [if_pos hv] at h
      cases t with
      | enum e => exact absurd hr (henum e)
      | _ => exact h
    rcases resolveIdentifier_step hmap hlist hc hw hid with hcopy | ⟨hnone, rfl⟩
    · refine .inl ⟨⟨⟨t, hr, ht⟩, ?_⟩, hcopy⟩
      cases w with
      | baseType base bin => trivial
      | map k v => trivial
      | list e => trivial
      | _ => exact hcopy
    · exact .inr ⟨fun hcopied => hnone ⟨t, hr ▸ hcopied⟩, rfl⟩
  cases r with
  | none => exact hleft (fun t ht => by cases ht) h
  | some t =>
    change resolveConstValue scopes fuel scope t x = .ok y at h
    obtain ⟨vt, es, xs, str, n, d, i, e⟩ := x
    change es = [] at hmap
    change xs = [] at hlist
    subst hmap hlist
    unfold resolveConstValue at h
    cases t with
    | list elem =>
      refine hleft (fun t ht hs => ?_) ?_
      · cases ht
        exact hs
      · unfold resolveElems at h
        exact (Except.ok.inj h).symm
    | set elem =>
      refine hleft (fun t ht hs => ?_) ?_
      · cases ht
        exact hs
      · unfold resolveElems at h
        exact (Except.ok.inj h).symm
    | map k v =>
      refine hleft (fun t ht hs => ?_) ?_
      · cases ht
        exact hs
      · unfold resolveEntries at h
        exact (Except.ok.inj h).symm
    | struct s =>
      dsimp only at h
      split at h
      · rename_i hs
        exact hsingle rfl hs h
      · rename_i hs
        refine hleft (fun t ht hx => ?_) ?_
        · cases ht
          exact hs hx
        · unfold resolveFields at h
          exact (Except.ok.inj h).symm
    | enum e => exact absurd rfl (henum e)
    | baseType base bin => exact hsingle rfl trivial h
    | typedef p name t => exact hsingle rfl trivial h
    | forwardTypedef p name => exact hsingle rfl trivial h

theorem exprOf_string {a b : String} :
    exprOf (.percentQ (escapeString a)) = exprOf (.percentQ (escapeString b)) ↔ a = b := by
  constructor
  · intro h
    exact escapeString_injective (Expr.string.inj h).2
  · rintro rfl
    rfl

theorem numberText_double {u : ThriftType} {y : ConstValue} {d : UInt64} {bin : Bool}
    (hu : u = .baseType .TYPE_DOUBLE bin) (hv : y.valType ≠ .CV_INTEGER) (hd : y.doubleVal = d) :
    numberText u y = .ok (formatDouble d) := by
  rw [hu, numberText, renderBaseText, if_neg hv, hd]
  rfl

theorem numberText_integer {u : ThriftType} {y : ConstValue} {n : Int64}
    (hu : typeKind u = .number) (hv : y.valType = .CV_INTEGER) (hn : y.intVal = n) :
    numberText u y = .ok (formatInteger n.toInt) := by
  have hint : y.getInteger = .ok n := by
    rw [ConstValue.getInteger, if_neg (by rw [hv]; decide), hn]
    rfl
  rcases number_cases hu with hwhole | ⟨bin, rfl⟩
  · rw [numberText_whole hwhole, hint]
    rfl
  · rw [numberText, renderBaseText, if_pos hv, hint]
    rfl

theorem numberText_copied {u : ThriftType} {x v : ConstValue} (hu : typeKind u = .number) :
    numberText u (x.setDouble v.doubleVal) = .ok (copiedDigits u x v) := by
  rcases number_cases hu with hwhole | ⟨bin, rfl⟩
  · have hdigits : copiedDigits u x v = formatInteger x.intVal.toInt := by
      unfold copiedDigits
      split
      · exact absurd hwhole (not_whole_double _)
      · rfl
    rw [numberText_whole hwhole, hdigits]
    rfl
  · rfl

theorem copied_same {u w : ThriftType} {x v y : ConstValue} {l l' : Literal}
    (hcopy : CopyStep w x v y) (hkind : typeKind u = typeKind w) (h : printsStep scopes fuel u y l)
    (h' : printsStep scopes fuel w v l') : exprOf l = exprOf l' ↔ CopySame scopes u w x v := by
  have hnumber : ∀ {text}, typeKind w = .number → numberText u y = .ok text →
      (exprOf l = exprOf l' ↔ numberText w v = .ok text) := by
    intro text hw htext
    obtain ⟨text₁, htext₁, hl⟩ := number_prints (hkind.trans hw) h
    obtain ⟨text₂, htext₂, hl'⟩ := number_prints hw h'
    obtain rfl := Except.ok.inj (htext.symm.trans htext₁)
    rw [hl, hl', htext₂, Expr.word.injEq, Except.ok.injEq, eq_comm]
  cases w with
  | baseType base bin =>
    have hwhole : typeKind (.baseType base bin) = .number → base ≠ .TYPE_DOUBLE →
        (∃ n, v.getInteger = .ok n ∧ y = x.setInteger n) →
          (exprOf l = exprOf l' ↔ CopySame scopes u (.baseType base bin) x v) := by
      rintro hw hne ⟨n, hn, rfl⟩
      rw [hnumber hw (numberText_integer (hkind.trans hw) rfl rfl)]
      refine iff_of_true ?_ ?_
      · rw [numberText_whole ⟨hw, fun b hb => hne (ThriftType.baseType.inj hb).1⟩, hn]
        rfl
      · cases u <;> cases base <;> trivial
    cases base with
    | TYPE_VOID => exact hcopy.elim
    | TYPE_STRING =>
      rw [string_prints hkind h, string_prints rfl h', exprOf_string]
      rw [CopyStep] at hcopy
      subst hcopy
      refine iff_of_true rfl ?_
      cases u <;> trivial
    | TYPE_BOOL =>
      obtain ⟨n, hn, rfl⟩ := hcopy
      obtain ⟨m, hm, rfl⟩ := bool_prints hkind h
      obtain ⟨m', hm', rfl⟩ := bool_prints rfl h'
      rw [hn] at hm'
      obtain rfl := Except.ok.inj hm
      obtain rfl := Except.ok.inj hm'
      refine iff_of_true rfl ?_
      cases u <;> trivial
    | TYPE_DOUBLE =>
      rw [CopyStep] at hcopy
      subst hcopy
      rw [hnumber rfl (numberText_copied hkind)]
      have hsame : CopySame scopes u (.baseType .TYPE_DOUBLE bin) x v ↔
          (¬ Whole u ∧ v.valType ≠ .CV_INTEGER) ∨
            numberText (.baseType .TYPE_DOUBLE bin) v = .ok (copiedDigits u x v) := by
        cases u <;> rfl
      rw [hsame]
      constructor
      · exact .inr
      · rintro (⟨hwhole, hv⟩ | htext)
        · rcases number_cases hkind with hw | ⟨bin', rfl⟩
          · exact absurd hw hwhole
          · exact numberText_double rfl hv rfl
        · exact htext
    | TYPE_BYTE => exact hwhole rfl (by decide) hcopy
    | TYPE_I16 => exact hwhole rfl (by decide) hcopy
    | TYPE_I32 => exact hwhole rfl (by decide) hcopy
    | TYPE_I64 => exact hwhole rfl (by decide) hcopy
  | map k' val' =>
    cases u with
    | map k val =>
      rw [CopyStep] at hcopy
      subst hcopy
      obtain ⟨es, hes, rfl⟩ := h
      obtain ⟨es', hes', rfl⟩ := h'
      rw [exprOf, exprOf, Expr.hash.injEq]
      exact entries_same (fun e _ => ⟨sameAt_iff e.1, sameAt_iff e.2⟩) hes hes'
    | baseType base bin => cases base <;> cases hkind
    | _ => cases hkind
  | list e' =>
    cases u with
    | list e =>
      rw [CopyStep] at hcopy
      subst hcopy
      obtain ⟨xs, hxs, rfl⟩ := h
      obtain ⟨xs', hxs', rfl⟩ := h'
      rw [exprOf, exprOf, Expr.array.injEq]
      exact elems_same (fun x _ => sameAt_iff x) hxs hxs'
    | baseType base bin => cases base <;> cases hkind
    | _ => cases hkind
  | _ => exact hcopy.elim

theorem exprsOf_eq_nil {ls : List Literal} : exprsOf ls = [] ↔ ls = [] := by
  cases ls <;> simp [exprsOf]

theorem entriesOf_eq_nil {ls : List (Literal × Literal)} : entriesOf ls = [] ↔ ls = [] := by
  cases ls <;> simp [entriesOf]

theorem forall₂_nil_iff {α β : Type} {R : α → β → Prop} {xs : List α} {ys : List β}
    (h : List.Forall₂ R xs ys) : ys = [] ↔ xs = [] := by
  cases h <;> simp

theorem left_same {u w : ThriftType} {x v : ConstValue} {l l' : Literal} (hx : Parsed x)
    (hid : x.valType = .CV_IDENTIFIER) (hstr : x.stringVal = "") (hkind : typeKind u = typeKind w)
    (h : printsStep scopes fuel u x l) (h' : printsStep scopes fuel w v l') :
    exprOf l = exprOf l' ↔ LeftSame w x v := by
  obtain ⟨henum, hmap, hlist, -, -, -⟩ := hx
  replace hmap := hmap (by rw [hid]; decide)
  replace hlist := hlist (by rw [hid]; decide)
  have hint : ∀ n, x.getInteger ≠ .ok n := by
    intro n hn
    rw [ConstValue.getInteger, if_pos hid, henum] at hn
    cases hn
  have hnumber : typeKind w = .number → (exprOf l = exprOf l' ↔
      numberText w v = .ok (formatDouble x.doubleVal)) := by
    intro hw
    obtain ⟨text, htext, hl⟩ := number_prints (hkind.trans hw) h
    obtain ⟨text', htext', hl'⟩ := number_prints hw h'
    rcases number_cases (hkind.trans hw) with hwhole | ⟨bin, hu⟩
    · rw [numberText_whole hwhole] at htext
      obtain ⟨n, hn, -⟩ := bind_ok htext
      exact absurd hn (hint n)
    · rw [numberText_double hu (by rw [hid]; decide) rfl] at htext
      rw [hl, hl', htext', ← Except.ok.inj htext, Expr.word.injEq, Except.ok.injEq, eq_comm]
  cases w with
  | baseType base bin =>
    cases base with
    | TYPE_VOID => cases h'
    | TYPE_STRING =>
      rw [string_prints hkind h, string_prints rfl h', exprOf_string, hstr, eq_comm]
      rfl
    | TYPE_BOOL =>
      obtain ⟨n, hn, -⟩ := bool_prints hkind h
      exact absurd hn (hint n)
    | _ => exact hnumber rfl
  | enum e => exact hnumber rfl
  | struct s' =>
    cases u with
    | struct s =>
      obtain ⟨es, hes, rfl⟩ := h
      obtain ⟨es', hes', rfl⟩ := h'
      rw [hmap, renderFields] at hes
      rw [exprOf, exprOf, Kind.new.inj hkind, Expr.new.injEq, ← Except.ok.inj hes, entriesOf,
        eq_comm (a := []), entriesOf_eq_nil, forall₂_nil_iff (renderFields_forall₂ hes')]
      exact and_iff_right rfl
    | baseType base bin => cases base <;> cases hkind
    | _ => cases hkind
  | map k' val' =>
    cases u with
    | map k val =>
      obtain ⟨es, hes, rfl⟩ := h
      obtain ⟨es', hes', rfl⟩ := h'
      rw [hmap, renderEntries] at hes
      rw [exprOf, exprOf, Expr.hash.injEq, ← Except.ok.inj hes, entriesOf, eq_comm (a := []),
        entriesOf_eq_nil, forall₂_nil_iff (renderEntries_forall₂ hes')]
      rfl
    | baseType base bin => cases base <;> cases hkind
    | _ => cases hkind
  | list e' =>
    cases u with
    | list e =>
      obtain ⟨xs, hxs, rfl⟩ := h
      obtain ⟨xs', hxs', rfl⟩ := h'
      rw [hlist, renderElems] at hxs
      rw [exprOf, exprOf, Expr.array.injEq, ← Except.ok.inj hxs, exprsOf, eq_comm (a := []),
        exprsOf_eq_nil, forall₂_nil_iff (renderElems_forall₂ hxs')]
      rfl
    | baseType base bin => cases base <;> cases hkind
    | _ => cases hkind
  | set e' =>
    cases u with
    | set e =>
      obtain ⟨xs, hxs, rfl⟩ := h
      obtain ⟨xs', hxs', rfl⟩ := h'
      rw [hlist, renderElems] at hxs
      rw [exprOf, exprOf, Expr.set.injEq, ← Except.ok.inj hxs, exprsOf, eq_comm (a := []),
        exprsOf_eq_nil, forall₂_nil_iff (renderElems_forall₂ hxs')]
      rfl
    | baseType base bin => cases base <;> cases hkind
    | _ => cases hkind
  | typedef p name t => exact h'.elim
  | forwardTypedef p name => exact h'.elim

/-- Wherever in a constant or default an identifier stands for an earlier constant, it is
    printed like that constant exactly when it is copied there and read as the same type. -/
theorem reference_transparent {T U t w : ThriftType} {cv cv' x y : ConstValue}
    {L l l' : Literal} {r : Option ThriftType} {c : TConst} (hcv : Parsed cv)
    (hresolve : resolveConstValue scopes fuel scope T cv = .ok cv')
    (hrender : renderConstValue scopes' fuel' U cv' = .ok L)
    (hplace : Relation.ReflTransGen (Part scopes') ⟨some T, U, cv, cv', L⟩ ⟨r, t, x, y, l⟩)
    (hx : x.valType = .CV_IDENTIFIER) (hstr : x.stringVal = "")
    (henum : ∀ e, r ≠ some (.enum e)) (hc : scope.getConstant x.identifierVal = some c)
    (hw : Expands scopes c.type w) (hw' : Expands scopes' c.type w)
    (hconst : renderConstValue scopes' fuel' c.type c.value = .ok l') :
    exprOf l = exprOf l' ↔ Transparent scopes' r t x w c.value := by
  have hroot : Runs scopes scopes' fuel fuel' scope ⟨some T, U, cv, cv', L⟩ :=
    ⟨hcv, hresolve, hrender⟩
  obtain ⟨hparsed, hresolved, hprinted⟩ := hroot.inside hplace
  obtain ⟨u, hu, h⟩ := prints_step hprinted
  have h' := prints_of_expands hw' hconst
  have hkind : exprOf l = exprOf l' → typeKind u = typeKind w := by
    intro heq
    rw [← literalKind_of_prints h, ← literalKind_of_prints h', literalKind_congr heq]
  have hsame : typeKind u = typeKind w → (exprOf l = exprOf l' ↔
      (Copied r w ∧ CopySame scopes' u w x c.value) ∨ (¬ Copied r w ∧ LeftSame w x c.value)) := by
    intro hk
    rcases reference_value hparsed hx henum hc hw hresolved with ⟨hcopied, hcopy⟩ | ⟨hleft, hy⟩
    · rw [copied_same hcopy hk h h']
      simp [hcopied]
    · obtain rfl : y = x := hy
      rw [left_same hparsed hx hstr hk h h']
      simp [hleft]
  constructor
  · intro heq
    exact ⟨u, hu, hkind heq, (hsame (hkind heq)).mp heq⟩
  · rintro ⟨u', hu', hk, hcase⟩
    obtain rfl := hu.unique hu'
    exact (hsame hk).mpr hcase

end References

section Examples

def i32 : ThriftType := .baseType .TYPE_I32 false

def nameOfA : ConstValue := { valType := .CV_IDENTIFIER, identifierVal := "A" }

def listOfA : ConstValue := { valType := .CV_LIST, listVal := [nameOfA] }

def declaring (type : ThriftType) (value : ConstValue) : Scope :=
  { constants := [("A", ⟨type, "A", value⟩)] }

theorem parsed_nameOfA : Parsed nameOfA :=
  .mk rfl (fun _ => rfl) (fun _ => rfl) (fun _ he => absurd he List.not_mem_nil)
    (fun _ he => absurd he List.not_mem_nil) fun _ hx => absurd hx List.not_mem_nil

theorem parsed_listOfA : Parsed listOfA := by
  refine .mk rfl (fun _ => rfl) (fun h => absurd rfl h) ?_ ?_ ?_
  · exact fun _ he => absurd he List.not_mem_nil
  · exact fun _ he => absurd he List.not_mem_nil
  · intro x hx
    rw [List.mem_singleton.mp hx]
    exact parsed_nameOfA

/-- `const i32 A = 5` and `const list<i32> B = [A]` -/
theorem elem_transparent : Transparent noScopes (some i32) i32 nameOfA i32 five := by
  have hplace : Part noScopes
      ⟨some i32List, i32List, listOfA, { listOfA with listVal := [nameOfA.setInteger 5] },
        .array [.int 5]⟩ ⟨some i32, i32, nameOfA, nameOfA.setInteger 5, .int 5⟩ :=
    @Part.elem noScopes _ i32 0 nameOfA (nameOfA.setInteger 5) (.int 5) (.inl (expands_self rfl))
      rfl rfl rfl
  exact (@reference_transparent noScopes noScopes 1 1 (declaring i32 five) i32List i32List i32 i32
    listOfA _ nameOfA _ _ (.int 5) (.int 5) _ ⟨i32, "A", five⟩ parsed_listOfA rfl rfl
    (.single hplace) rfl rfl (fun e he => by cases he) rfl (expands_self rfl) (expands_self rfl)
    rfl).mp rfl

/-- `const list<i32> A = [5]` and `const list<i32> B = A` are accepted, and `B` is empty. -/
theorem alias_emptied :
    Parsed nameOfA ∧
      (declaring i32List listOfFive).getConstant "A" = some ⟨i32List, "A", listOfFive⟩ ∧
      resolveConstValue noScopes 1 (declaring i32List listOfFive) i32List nameOfA = .ok nameOfA ∧
      validateConstRec "B" i32List nameOfA = .ok () ∧
      renderConstValue noScopes 1 i32List nameOfA = .ok (.array []) ∧
      renderConstValue noScopes 1 i32List listOfFive = .ok (.array [.int 5]) ∧
      exprOf (.array []) ≠ exprOf (.array [.int 5]) := by
  refine ⟨parsed_nameOfA, rfl, rfl, rfl, rfl, rfl, fun h => ?_⟩
  cases Expr.array.inj h

end Examples

end Sparsam.ConstantReferences
