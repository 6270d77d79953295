import Mathlib.Order.Filter.AtTopBot.Basic
import Mathlib.Order.Filter.Finite
import Sparsam.ClassReferences
import Sparsam.GeneratedFiles

set_option autoImplicit false

/-!
# The programs that can be printed

`generate_program` stops where a typedef is of a name that nothing defines, goes
on for ever where typedefs make a cycle, and throws at `void` and at a constant
that does not go with its type. Every other program is printed, from some bound
on the loop of `get_true_type` on.
-/
namespace Sparsam.PrintablePrograms
open ThriftTypes ThriftScope ThriftParser ClassReferences GeneratedText FieldsText GeneratedFiles
open RequirePaths Filter
open RubyNames (rubyModules)
open SchemaLiteral (FieldArgs fieldArgs)

def HasInteger (cv : ConstValue) : Prop :=
  cv.valType = .CV_IDENTIFIER → ∃ e ∈ cv.tenum,
    (e.getConstantByName (ConstValue.afterLastDot cv.identifierVal)).isSome = true

/-- The value of a base type that is printed. -/
def BaseValue (base : TBase) (cv : ConstValue) : Prop :=
  match base with
  | .TYPE_VOID => False
  | .TYPE_STRING | .TYPE_DOUBLE => True
  | .TYPE_BOOL | .TYPE_BYTE | .TYPE_I16 | .TYPE_I32 | .TYPE_I64 => HasInteger cv

section
variable (scopes : String → Scope)

/-- A value that can be printed as a constant of this type. -/
inductive Printable : ThriftType → ConstValue → Prop where
  | base {t : ThriftType} {cv : ConstValue} {base : TBase} {bin : Bool}
      (h : Expands scopes t (.baseType base bin)) (hcv : BaseValue base cv) : Printable t cv
  | enum {t : ThriftType} {cv : ConstValue} {e : TEnum} (h : Expands scopes t (.enum e))
      (hcv : HasInteger cv) : Printable t cv
  | struct {t : ThriftType} {cv : ConstValue} {s : TStruct} (h : Expands scopes t (.struct s))
      (hkeys : ∀ e ∈ cv.mapVal, (memberType s e.1.stringVal).isSome = true)
      (hvals : ∀ e ∈ cv.mapVal, ∀ m, memberType s e.1.stringVal = some m → Printable m e.2) :
      Printable t cv
  | map {t k v : ThriftType} {cv : ConstValue} (h : Expands scopes t (.map k v))
      (hkeys : ∀ e ∈ cv.mapVal, Printable k e.1) (hvals : ∀ e ∈ cv.mapVal, Printable v e.2) :
      Printable t cv
  | list {t elem : ThriftType} {cv : ConstValue} (h : Expands scopes t (.list elem))
      (helems : ∀ x ∈ cv.listVal, Printable elem x) : Printable t cv
  | set {t elem : ThriftType} {cv : ConstValue} (h : Expands scopes t (.set elem))
      (helems : ∀ x ∈ cv.listVal, Printable elem x) : Printable t cv

/-- A type that `generate_field_data` can describe: it expands, and so do its parts. -/
inductive Describable : ThriftType → Prop where
  | base {t : ThriftType} {base : TBase} {bin : Bool} (h : Expands scopes t (.baseType base bin))
      (hbase : base ≠ .TYPE_VOID) : Describable t
  | enum {t : ThriftType} {e : TEnum} (h : Expands scopes t (.enum e)) : Describable t
  | struct {t : ThriftType} {s : TStruct} (h : Expands scopes t (.struct s)) : Describable t
  | map {t k v : ThriftType} (h : Expands scopes t (.map k v)) (hk : Describable k)
      (hv : Describable v) : Describable t
  | list {t elem : ThriftType} (h : Expands scopes t (.list elem)) (he : Describable elem) :
      Describable t
  | set {t elem : ThriftType} (h : Expands scopes t (.set elem)) (he : Describable elem) :
      Describable t

/-- Every member and every constant of the program can be printed. -/
structure PrintableProgram (p : Program) : Prop where
  members : ∀ s ∈ p.objects, ∀ f ∈ s.members,
    Describable scopes f.type ∧ ∀ cv ∈ f.value, Printable scopes f.type cv
  consts : ∀ c ∈ p.consts, Printable scopes c.type c.value

end

section Succeeds
variable {α β : Type}

def Succeeds (x : Compile α) : Prop := ∃ a, x = .ok a

theorem succeeds_pure (a : α) : Succeeds (pure a : Compile α) := ⟨a, rfl⟩

theorem not_succeeds_error (e : CompileError) : ¬ Succeeds (.error e : Compile α) := by
  rintro ⟨a, h⟩
  cases h

theorem succeeds_bind {x : Compile α} {f : α → Compile β} :
    Succeeds (x >>= f) ↔ ∃ a, x = .ok a ∧ Succeeds (f a) := by
  constructor
  · rintro ⟨b, h⟩
    obtain ⟨a, ha, h⟩ := bind_ok h
    exact ⟨a, ha, b, h⟩
  · rintro ⟨a, rfl, h⟩
    exact h

theorem succeeds_then {x : Compile α} {f : α → Compile β} {R : Prop}
    (h : ∀ a, Succeeds (f a) ↔ R) : Succeeds (x >>= f) ↔ Succeeds x ∧ R := by
  rw [succeeds_bind]
  constructor
  · rintro ⟨a, ha, hf⟩
    exact ⟨⟨a, ha⟩, (h a).mp hf⟩
  · rintro ⟨⟨a, ha⟩, hrest⟩
    exact ⟨a, ha, (h a).mpr hrest⟩

theorem succeeds_map {x : Compile α} {f : α → β} :
    Succeeds (x >>= fun a => pure (f a)) ↔ Succeeds x := by
  rw [succeeds_then (R := True) fun a => iff_of_true (succeeds_pure _) trivial, and_true]

theorem succeeds_mapM {f : α → Compile β} {xs : List α} :
    Succeeds (xs.mapM f) ↔ ∀ x ∈ xs, Succeeds (f x) := by
  induction xs with
  | nil => exact iff_of_true (succeeds_pure _) (by simp)
  | cons x xs ih =>
    rw [List.mapM_cons, List.forall_mem_cons, ← ih]
    exact succeeds_then fun _ => succeeds_map

end Succeeds

section Printing
variable {scopes : String → Scope} {fuel : ℕ}

theorem getInteger_succeeds (cv : ConstValue) : Succeeds cv.getInteger ↔ HasInteger cv := by
  unfold ConstValue.getInteger HasInteger
  by_cases hid : cv.valType = .CV_IDENTIFIER
  · rw [if_pos hid]
    cases henum : cv.tenum with
    | none => exact iff_of_false (not_succeeds_error _) fun h => by simpa using h hid
    | some e =>
      dsimp only
      cases hval : e.getConstantByName (ConstValue.afterLastDot cv.identifierVal) with
      | none => exact iff_of_false (not_succeeds_error _) fun h => by simpa [hval] using h hid
      | some val => exact iff_of_true (succeeds_pure _) fun _ => ⟨e, rfl, by rw [hval]; rfl⟩
  · rw [if_neg hid]
    exact iff_of_true (succeeds_pure _) fun h => absurd h hid

theorem renderBaseText_succeeds (base : TBase) (cv : ConstValue) :
    Succeeds (renderBaseText base cv) ↔ BaseValue base cv := by
  have hinteger : ∀ {f : Int64 → List Char},
      Succeeds (cv.getInteger >>= fun n => pure (f n)) ↔ HasInteger cv :=
    succeeds_map.trans (getInteger_succeeds cv)
  cases base with
  | TYPE_VOID => exact iff_of_false (not_succeeds_error _) not_false
  | TYPE_STRING => exact iff_of_true (succeeds_pure _) trivial
  | TYPE_DOUBLE =>
    refine iff_of_true ?_ trivial
    unfold renderBaseText
    dsimp only
    split
    · rename_i hcv
      refine hinteger.mpr fun hid => ?_
      rw [hcv] at hid
      cases hid
    · exact succeeds_pure _
  | TYPE_BOOL | TYPE_BYTE | TYPE_I16 | TYPE_I32 | TYPE_I64 => exact hinteger

theorem renderElemsText_succeeds {depth : ℕ} {t : ThriftType} {xs : List ConstValue} :
    Succeeds (renderElemsText scopes fuel depth t xs) ↔
      ∀ x ∈ xs, Succeeds (renderConstText scopes fuel depth t x) := by
  induction xs with
  | nil =>
    unfold renderElemsText
    exact iff_of_true (succeeds_pure _) (by simp)
  | cons x xs ih =>
    unfold renderElemsText
    rw [List.forall_mem_cons, ← ih]
    exact succeeds_then fun _ => succeeds_map

theorem renderEntriesText_succeeds {depth : ℕ} {k v : ThriftType}
    {es : List (ConstValue × ConstValue)} :
    Succeeds (renderEntriesText scopes fuel depth k v es) ↔
      ∀ e ∈ es, Succeeds (renderConstText scopes fuel depth k e.1) ∧
        Succeeds (renderConstText scopes fuel depth v e.2) := by
  induction es with
  | nil =>
    unfold renderEntriesText
    exact iff_of_true (succeeds_pure _) (by simp)
  | cons e es ih =>
    obtain ⟨x, y⟩ := e
    unfold renderEntriesText
    rw [List.forall_mem_cons, ← ih, and_assoc]
    exact succeeds_then fun _ => succeeds_then fun _ => succeeds_map

theorem renderFieldsText_succeeds {depth : ℕ} {s : TStruct}
    {es : List (ConstValue × ConstValue)} :
    Succeeds (renderFieldsText scopes fuel depth s es) ↔
      ∀ e ∈ es, ∃ m, memberType s e.1.stringVal = some m ∧
        Succeeds (renderConstText scopes fuel depth m e.2) := by
  induction es with
  | nil =>
    unfold renderFieldsText
    exact iff_of_true (succeeds_pure _) (by simp)
  | cons e es ih =>
    obtain ⟨x, y⟩ := e
    unfold renderFieldsText
    rw [List.forall_mem_cons, ← ih]
    cases hm : memberType s x.stringVal with
    | none => exact iff_of_false (not_succeeds_error _) (by simp)
    | some m =>
      dsimp only
      rw [succeeds_then (R := Succeeds (renderFieldsText scopes fuel depth s es))
        fun _ => succeeds_map]
      simp

def printStep (scopes : String → Scope) (fuel depth : ℕ) (u : ThriftType) (cv : ConstValue) :
    Prop :=
  match u with
  | .baseType base _ => BaseValue base cv
  | .enum _ => HasInteger cv
  | .struct s => ∀ e ∈ cv.mapVal, ∃ m, memberType s e.1.stringVal = some m ∧
      Succeeds (renderConstText scopes fuel depth m e.2)
  | .map k v => ∀ e ∈ cv.mapVal, Succeeds (renderConstText scopes fuel depth k e.1) ∧
      Succeeds (renderConstText scopes fuel depth v e.2)
  | .list t | .set t => ∀ x ∈ cv.listVal, Succeeds (renderConstText scopes fuel depth t x)
  | .typedef _ _ _ | .forwardTypedef _ _ => False

theorem renderConstText_succeeds (depth : ℕ) (t : ThriftType) (cv : ConstValue) :
    Succeeds (renderConstText scopes fuel depth t cv) ↔
      ∃ u, getTrueType scopes fuel t = .ok u ∧ printStep scopes fuel (depth + 1) u cv := by
  obtain ⟨vt, es, xs, str, n, d, i, tenum⟩ := cv
  unfold renderConstText
  rw [succeeds_bind]
  refine exists_congr fun u => and_congr_right fun _ => ?_
  cases u with
  | baseType base bin => exact renderBaseText_succeeds base _
  | enum e => exact succeeds_map.trans (getInteger_succeeds _)
  | struct s => exact succeeds_map.trans renderFieldsText_succeeds
  | map k v => exact succeeds_map.trans renderEntriesText_succeeds
  | list t => exact succeeds_map.trans renderElemsText_succeeds
  | set t => exact succeeds_map.trans renderElemsText_succeeds
  | typedef p name t => exact iff_of_false (not_succeeds_error _) not_false
  | forwardTypedef p name => exact iff_of_false (not_succeeds_error _) not_false

theorem printable_of_succeeds (cv : ConstValue) : ∀ depth t,
    Succeeds (renderConstText scopes fuel depth t cv) → Printable scopes t cv := by
  induction cv using ConstValue.induct with
  | mk cv ihmap ihlist =>
    intro depth t h
    obtain ⟨u, hu, hstep⟩ := (renderConstText_succeeds depth t cv).mp h
    have hexpands : Expands scopes t u := ⟨fuel, hu⟩
    cases u with
    | baseType base bin => exact .base hexpands hstep
    | enum e => exact .enum hexpands hstep
    | struct s =>
      refine .struct hexpands (fun e he => ?_) fun e he m hm => ?_
      · obtain ⟨m, hm, -⟩ := hstep e he
        rw [hm]
        rfl
      · obtain ⟨m', hm', hy⟩ := hstep e he
        rw [hm] at hm'
        obtain rfl := Option.some.inj hm'
        exact (ihmap e he).2 _ _ hy
    | map k v =>
      exact .map hexpands (fun e he => (ihmap e he).1 _ _ (hstep e he).1)
        fun e he => (ihmap e he).2 _ _ (hstep e he).2
    | list t => exact .list hexpands fun x hx => ihlist x hx _ _ (hstep x hx)
    | set t => exact .set hexpands fun x hx => ihlist x hx _ _ (hstep x hx)
    | typedef p name t => exact hstep.elim
    | forwardTypedef p name => exact hstep.elim

theorem getTrueType_mono {fuel' : ℕ} (hfuel : fuel ≤ fuel') {t u : ThriftType}
    (h : getTrueType scopes fuel t = .ok u) : getTrueType scopes fuel' t = .ok u := by
  induction fuel generalizing fuel' t with
  | zero => cases h
  | succ fuel ih =>
    obtain ⟨fuel', rfl⟩ := Nat.exists_eq_add_of_le' (Nat.lt_of_lt_of_le fuel.succ_pos hfuel)
    change getTrueType scopes (fuel' + 1) t = .ok u
    unfold getTrueType at h ⊢
    cases hnext : getType scopes t with
    | none =>
      rw [hnext] at h
      exact h
    | some next =>
      rw [hnext] at h
      obtain ⟨a, ha, h⟩ := bind_ok h
      dsimp only
      rw [ha]
      exact ih (by omega) h

theorem eventually_expands {t u : ThriftType} (h : Expands scopes t u) :
    ∀ᶠ fuel in atTop, getTrueType scopes fuel t = .ok u := by
  obtain ⟨fuel, h⟩ := h
  exact eventually_atTop.mpr ⟨fuel, fun fuel' hfuel => getTrueType_mono hfuel h⟩

theorem eventually_forall_mem {α : Type} {l : List α} {P : α → ℕ → Prop}
    (h : ∀ x ∈ l, ∀ᶠ n in atTop, P x n) : ∀ᶠ n in atTop, ∀ x ∈ l, P x n :=
  (eventually_all_finite (List.finite_toSet l)).mpr h

theorem eventually_rendered {t : ThriftType} {cv : ConstValue} (h : Printable scopes t cv) :
    ∀ᶠ fuel in atTop, ∀ depth, Succeeds (renderConstText scopes fuel depth t cv) := by
  induction h with
  | base h hcv =>
    filter_upwards [eventually_expands h] with fuel hu depth
    exact (renderConstText_succeeds _ _ _).mpr ⟨_, hu, hcv⟩
  | enum h hcv =>
    filter_upwards [eventually_expands h] with fuel hu depth
    exact (renderConstText_succeeds _ _ _).mpr ⟨_, hu, hcv⟩
  | @struct t cv s h hkeys hvals ih =>
    have hall := eventually_forall_mem (l := cv.mapVal) (P := fun e fuel =>
      ∀ m, memberType s e.1.stringVal = some m →
        ∀ depth, Succeeds (renderConstText scopes fuel depth m e.2)) fun e he => by
      obtain ⟨m, hm⟩ := Option.isSome_iff_exists.mp (hkeys e he)
      filter_upwards [ih e he m hm] with fuel hrendered m' hm'
      rw [hm] at hm'
      rw [← Option.some.inj hm']
      exact hrendered
    filter_upwards [eventually_expands h, hall] with fuel hu hrendered depth
    refine (renderConstText_succeeds _ _ _).mpr ⟨_, hu, fun e he => ?_⟩
    obtain ⟨m, hm⟩ := Option.isSome_iff_exists.mp (hkeys e he)
    exact ⟨m, hm, hrendered e he m hm _⟩
  | map h hkeys hvals ihk ihv =>
    filter_upwards [eventually_expands h, eventually_forall_mem ihk, eventually_forall_mem ihv]
      with fuel hu hkeys hvals depth
    exact (renderConstText_succeeds _ _ _).mpr
      ⟨_, hu, fun e he => ⟨hkeys e he _, hvals e he _⟩⟩
  | list h helems ih =>
    filter_upwards [eventually_expands h, eventually_forall_mem ih] with fuel hu helems depth
    exact (renderConstText_succeeds _ _ _).mpr ⟨_, hu, fun x hx => helems x hx _⟩
  | set h helems ih =>
    filter_upwards [eventually_expands h, eventually_forall_mem ih] with fuel hu helems depth
    exact (renderConstText_succeeds _ _ _).mpr ⟨_, hu, fun x hx => helems x hx _⟩

end Printing

section Describing
variable {scopes : String → Scope} {fuel : ℕ}

theorem rendered_expanded {t u : ThriftType} {cv : ConstValue} {depth : ℕ}
    (hu : getTrueType scopes fuel t = .ok u) :
    Succeeds (renderConstText scopes fuel depth u cv) ↔
      Succeeds (renderConstText scopes fuel depth t cv) := by
  have hself : getTrueType scopes fuel u = .ok u := by
    have hhead := getTrueType_getType hu
    cases fuel with
    | zero => cases hu
    | succ fuel =>
      unfold getTrueType
      rw [hhead]
      rfl
  rw [renderConstText_succeeds, renderConstText_succeeds, hself, hu]

theorem defaultText_succeeds {depth : ℕ} {t : ThriftType} {value : Option ConstValue} :
    Succeeds (defaultText scopes fuel depth t value) ↔
      ∀ cv ∈ value, Succeeds (renderConstText scopes fuel depth t cv) := by
  cases value with
  | none => exact iff_of_true (succeeds_pure _) (by simp)
  | some cv =>
    refine succeeds_map.trans ⟨?_, fun h => h cv rfl⟩
    rintro h _ ⟨⟩
    exact h

/-- The types that `type_to_enum` has a name for, and what stands inside them. -/
def describeStep (nested : ThriftType → Prop) : ThriftType → Prop
  | .baseType base _ => base ≠ .TYPE_VOID
  | .enum _ | .struct _ => True
  | .map k v => nested k ∧ nested v
  | .list t | .set t => nested t
  | .typedef _ _ _ | .forwardTypedef _ _ => False

theorem entries_succeed {depth : ℕ} {nested : ThriftType → Compile (List Char)}
    (u : ThriftType) : Succeeds (typeToEnumText u) ∧ Succeeds (typeEntriesText depth nested u) ↔
      describeStep (fun t => Succeeds (nested t)) u := by
  cases u with
  | baseType base bin =>
    cases base with
    | TYPE_VOID => exact iff_of_false (fun h => not_succeeds_error _ h.1) fun h => h rfl
    | _ => exact iff_of_true ⟨succeeds_pure _, succeeds_pure _⟩ TBase.noConfusion
  | enum e => exact iff_of_true ⟨succeeds_pure _, succeeds_pure _⟩ trivial
  | struct s => exact iff_of_true ⟨succeeds_pure _, succeeds_pure _⟩ trivial
  | map k v =>
    refine (and_iff_right (succeeds_pure _)).trans ?_
    exact succeeds_then fun _ => succeeds_map
  | list t => exact (and_iff_right (succeeds_pure _)).trans succeeds_map
  | set t => exact (and_iff_right (succeeds_pure _)).trans succeeds_map
  | typedef p name t => exact iff_of_false (fun h => not_succeeds_error _ h.1) not_false
  | forwardTypedef p name => exact iff_of_false (fun h => not_succeeds_error _ h.1) not_false

theorem generateFieldDataText_succeeds (n depth : ℕ) (t : ThriftType) (args : FieldArgs) :
    Succeeds (generateFieldDataText scopes fuel (n + 1) depth t args) ↔
      ∃ u, getTrueType scopes fuel t = .ok u ∧
        (∀ cv ∈ args.fieldValue, Succeeds (renderConstText scopes fuel (depth + 1) t cv)) ∧
        describeStep (fun t => Succeeds (generateFieldDataText scopes fuel n (depth + 1) t {}))
          u := by
  conv_lhs => unfold generateFieldDataText
  rw [succeeds_bind]
  refine exists_congr fun u => and_congr_right fun hu => ?_
  have hdefault : (∀ cv ∈ args.fieldValue,
        Succeeds (renderConstText scopes fuel (depth + 1) u cv)) ↔
      ∀ cv ∈ args.fieldValue, Succeeds (renderConstText scopes fuel (depth + 1) t cv) :=
    forall₂_congr fun cv _ => rendered_expanded hu
  rw [← @entries_succeed (depth + 1) _ u, ← hdefault, ← defaultText_succeeds,
    and_left_comm]
  exact succeeds_then fun _ => succeeds_then fun _ => succeeds_map

theorem described_with {n depth : ℕ} {t : ThriftType} {args : FieldArgs}
    (ht : Succeeds (generateFieldDataText scopes fuel (n + 1) depth t {}))
    (hvalue : ∀ cv ∈ args.fieldValue, Succeeds (renderConstText scopes fuel (depth + 1) t cv)) :
    Succeeds (generateFieldDataText scopes fuel (n + 1) depth t args) := by
  obtain ⟨u, hu, -, hstep⟩ := (generateFieldDataText_succeeds n depth t {}).mp ht
  exact (generateFieldDataText_succeeds n depth t args).mpr ⟨u, hu, hvalue, hstep⟩

theorem describable_of_succeeds {n depth : ℕ} {t : ThriftType} {args : FieldArgs}
    (h : Succeeds (generateFieldDataText scopes fuel n depth t args)) : Describable scopes t := by
  induction n generalizing depth t args with
  | zero => exact (not_succeeds_error _ h).elim
  | succ n ih =>
    obtain ⟨u, hu, -, hstep⟩ := (generateFieldDataText_succeeds n depth t args).mp h
    have hexpands : Expands scopes t u := ⟨fuel, hu⟩
    cases u with
    | baseType base bin => exact .base hexpands hstep
    | enum e => exact .enum hexpands
    | struct s => exact .struct hexpands
    | map k v => exact .map hexpands (ih hstep.1) (ih hstep.2)
    | list t => exact .list hexpands (ih hstep)
    | set t => exact .set hexpands (ih hstep)
    | typedef p name t => exact hstep.elim
    | forwardTypedef p name => exact hstep.elim

theorem described_succ {t u : ThriftType} {r : ℕ} (hu : getTrueType scopes fuel t = .ok u)
    (h : ∀ n, r ≤ n → ∀ depth,
      describeStep (fun t => Succeeds (generateFieldDataText scopes fuel n depth t {})) u) :
    ∀ n, r + 1 ≤ n → ∀ depth, Succeeds (generateFieldDataText scopes fuel n depth t {}) := by
  intro n hn depth
  obtain ⟨n, rfl⟩ := Nat.exists_eq_add_of_le' (Nat.lt_of_lt_of_le r.succ_pos hn)
  exact (generateFieldDataText_succeeds n depth t {}).mpr ⟨u, hu, nofun, h n (by omega) _⟩

theorem eventually_described {t : ThriftType} (h : Describable scopes t) :
    ∃ rank, ∀ᶠ fuel in atTop, ∀ n, rank ≤ n → ∀ depth,
      Succeeds (generateFieldDataText scopes fuel n depth t {}) := by
  induction h with
  | base h hbase =>
    refine ⟨1, ?_⟩
    filter_upwards [eventually_expands h] with fuel hu
    exact described_succ (r := 0) hu fun _ _ _ => hbase
  | enum h =>
    refine ⟨1, ?_⟩
    filter_upwards [eventually_expands h] with fuel hu
    exact described_succ (r := 0) hu fun _ _ _ => trivial
  | struct h =>
    refine ⟨1, ?_⟩
    filter_upwards [eventually_expands h] with fuel hu
    exact described_succ (r := 0) hu fun _ _ _ => trivial
  | map h hk hv ihk ihv =>
    obtain ⟨rank, hk⟩ := ihk
    obtain ⟨rank', hv⟩ := ihv
    refine ⟨max rank rank' + 1, ?_⟩
    filter_upwards [eventually_expands h, hk, hv] with fuel hu hk hv
    exact described_succ hu fun n hn depth => ⟨hk n (by omega) depth, hv n (by omega) depth⟩
  | list h he ih =>
    obtain ⟨rank, he⟩ := ih
    refine ⟨rank + 1, ?_⟩
    filter_upwards [eventually_expands h, he] with fuel hu he
    exact described_succ hu he
  | set h he ih =>
    obtain ⟨rank, he⟩ := ih
    refine ⟨rank + 1, ?_⟩
    filter_upwards [eventually_expands h, he] with fuel hu he
    exact described_succ hu he

end Describing

section Whole
variable {scopes : String → Scope}

theorem generateProgramText_succeeds (fuel : ℕ) (g : Generator) (d : Decorations)
    (includes : List TProgram) (p : Program) :
    Succeeds (generateProgramText scopes fuel g d includes p) ↔
      (∀ s ∈ p.objects, ∀ f ∈ s.members, Succeeds (generateFieldDataText scopes fuel fuel
        (rubyModules p.info).length.succ.succ f.type (fieldArgs f))) ∧
      ∀ c ∈ p.consts, Succeeds (renderConstText scopes fuel (rubyModules p.info).length
        c.type c.value) := by
  have hobject : ∀ s : TStruct,
      Succeeds (generateRbStructText scopes fuel (rubyModules p.info).length d s) ↔
        ∀ f ∈ s.members, Succeeds (generateFieldDataText scopes fuel fuel
          (rubyModules p.info).length.succ.succ f.type (fieldArgs f)) := by
    intro s
    refine succeeds_map.trans (succeeds_map.trans (succeeds_mapM.trans ?_))
    exact forall₂_congr fun f _ => succeeds_map
  have hconst : ∀ c : TConst,
      Succeeds (generateConstText scopes fuel (rubyModules p.info).length c) ↔
        Succeeds (renderConstText scopes fuel (rubyModules p.info).length c.type c.value) :=
    fun _ => succeeds_map
  rw [← forall₂_congr fun s _ => hobject s, ← forall₂_congr fun c _ => hconst c,
    ← succeeds_mapM, ← succeeds_mapM]
  exact succeeds_then fun _ => succeeds_map

theorem printable_of_generated {fuel : ℕ} {g : Generator} {d : Decorations}
    {includes : List TProgram} {p : Program}
    (h : Succeeds (generateProgramText scopes fuel g d includes p)) :
    PrintableProgram scopes p := by
  obtain ⟨hmembers, hconsts⟩ := (generateProgramText_succeeds fuel g d includes p).mp h
  refine ⟨fun s hs f hf => ⟨describable_of_succeeds (hmembers s hs f hf), fun cv hcv => ?_⟩,
    fun c hc => printable_of_succeeds _ _ _ (hconsts c hc)⟩
  cases fuel with
  | zero => exact (not_succeeds_error _ (hmembers s hs f hf)).elim
  | succ fuel =>
    obtain ⟨-, -, hdefault, -⟩ := (generateFieldDataText_succeeds _ _ _ _).mp (hmembers s hs f hf)
    exact printable_of_succeeds _ _ _ (hdefault cv hcv)

theorem eventually_member {f : TField} (ht : Describable scopes f.type)
    (hvalue : ∀ cv ∈ f.value, Printable scopes f.type cv) :
    ∀ᶠ fuel in atTop, ∀ depth,
      Succeeds (generateFieldDataText scopes fuel fuel depth f.type (fieldArgs f)) := by
  obtain ⟨rank, hdescribed⟩ := eventually_described ht
  have hdefault : ∀ᶠ fuel in atTop, ∀ cv ∈ f.value, ∀ depth,
      Succeeds (renderConstText scopes fuel depth f.type cv) := by
    cases hv : f.value with
    | none => exact Eventually.of_forall fun _ => nofun
    | some cv =>
      filter_upwards [eventually_rendered (hvalue cv hv)] with fuel hcv
      rintro _ ⟨⟩
      exact hcv
  filter_upwards [hdescribed, hdefault, eventually_ge_atTop (rank + 1)] with fuel ht hcv hfuel depth
  obtain ⟨n, rfl⟩ := Nat.exists_eq_add_of_le' (Nat.lt_of_lt_of_le rank.succ_pos hfuel)
  exact described_with (ht _ (by omega) depth) fun cv h => hcv cv h _

/-- A program that can be printed is printed, from some bound on, whatever the generator
    knows beside it. -/
theorem eventually_generated {p : Program} (h : PrintableProgram scopes p) :
    ∀ᶠ fuel in atTop, ∀ g d includes,
      Succeeds (generateProgramText scopes fuel g d includes p) := by
  have hmembers := eventually_forall_mem fun s hs => eventually_forall_mem fun f hf =>
    eventually_member (h.members s hs f hf).1 (h.members s hs f hf).2
  have hconsts := eventually_forall_mem fun c hc => eventually_rendered (h.consts c hc)
  filter_upwards [hmembers, hconsts] with fuel hmembers hconsts g d includes
  exact (generateProgramText_succeeds fuel g d includes p).mpr
    ⟨fun s hs f hf => hmembers s hs f hf _, fun c hc => hconsts c hc _⟩

end Whole

end Sparsam.PrintablePrograms
