import Sparsam.ObjectMethods

set_option autoImplicit false

/-!
# Loading a generated program

Each generated class ends with a call of `cache_fields` on itself, so loading a
program runs `findOrCreateFieldInfoMap` over its classes in order. `Program` is
a program whose classes all load and only name each other; its `schema` is the
state the readers and writers run over.
-/
namespace Sparsam.Loading
open WireProtocol RubyRuntime FieldInfoCache ObjectMethods

abbrev ClassDefs := List (VALUE × RubyClass)

def cacheFields (g : Globals) (d : VALUE × RubyClass) : Option Globals :=
  (findOrCreateFieldInfoMap d.1 d.2 g).map Prod.snd

def loadClasses (defs : ClassDefs) : Option Globals := defs.foldlM cacheFields {}

/-- The decision procedure for `FieldInfo.Generated`. -/
def isGenerated (cached : VALUE → Bool) : FieldInfo → Bool
  | ⟨t, k, _, _, _, _, none, none⟩ =>
    (decide (t ∈ [TType.BOOL, .BYTE, .DOUBLE, .I16, .I32, .I64, .STRING]) && k == 0) ||
      (t == .STRUCT && cached k)
  | ⟨t, k, _, _, _, _, some e, none⟩ =>
    decide (t ∈ [TType.LIST, .SET]) && k == 0 && isGenerated cached e
  | ⟨t, k, _, _, _, _, some e, some key⟩ =>
    t == .MAP && k == 0 && isGenerated cached key && isGenerated cached e
  | ⟨_, _, _, _, _, _, none, some _⟩ => false

theorem generated_of_isGenerated (cached : VALUE → Bool) (fi : FieldInfo)
    (h : isGenerated cached fi = true) : fi.Generated fun k => cached k = true := by
  fun_induction isGenerated cached fi with
  | case1 t k =>
    simp only [Bool.or_eq_true, Bool.and_eq_true, decide_eq_true_eq, beq_iff_eq] at h
    rcases h with ⟨ht, hk⟩ | ⟨ht, hk⟩
    · exact .scalar _ ht hk rfl rfl
    · exact .struct _ ht hk rfl rfl
  | case2 t k _ _ _ _ e ih =>
    simp only [Bool.and_eq_true, decide_eq_true_eq, beq_iff_eq] at h
    obtain ⟨⟨ht, hk⟩, he⟩ := h
    exact .sequence _ e ht hk rfl rfl (ih he)
  | case3 t k _ _ _ _ e key ihk ihe =>
    simp only [Bool.and_eq_true, beq_iff_eq] at h
    obtain ⟨⟨⟨ht, hk⟩, hkey⟩, he⟩ := h
    exact .map _ key e ht hk rfl rfl (ihk hkey) (ihe he)
  | case4 => cases h

def fieldsLoaded (cached : VALUE → Bool) (fields : FieldInfoMap) : Bool :=
  fields.entries.all (fun e => isGenerated cached e.2 && e.2.ivarName == "@" ++ e.2.symName) &&
    decide (fields.entries.map fun e => e.2.symName).Nodup

/-- What a program must satisfy once its classes are loaded. -/
def globalsLoaded (g : Globals) : Bool :=
  (g.klassCache.lookup 0).isNone &&
    g.klassCache.all fun c => fieldsLoaded (fun k => (g.klassCache.lookup k).isSome) c.2

theorem cacheFields_lookup {g g' : Globals} {d : VALUE × RubyClass} (h : cacheFields g d = some g')
    (klass : VALUE) : (g'.klassCache.lookup klass).isSome ↔
      klass = d.1 ∨ (g.klassCache.lookup klass).isSome := by
  simp only [cacheFields, Option.map_eq_some_iff] at h
  obtain ⟨⟨ret, g''⟩, hfind, rfl⟩ := h
  unfold findOrCreateFieldInfoMap at hfind
  cases hc : g.klassCache.lookup d.1 with
  | some fields =>
    simp only [hc, Option.some.injEq, Prod.mk.injEq] at hfind
    obtain ⟨-, rfl⟩ := hfind
    refine ⟨.inr, ?_⟩
    rintro (rfl | h)
    · simp [hc]
    · exact h
  | none =>
    simp only [hc, Option.map_eq_some_iff, Prod.mk.injEq] at hfind
    obtain ⟨fields, -, -, rfl⟩ := hfind
    simp only [SortedMap.lookup_cons_if]
    by_cases hk : klass = d.1 <;> simp [hk]

theorem foldlM_lookup (defs : ClassDefs) {g g' : Globals} (h : defs.foldlM cacheFields g = some g')
    (klass : VALUE) : (g'.klassCache.lookup klass).isSome ↔
      klass ∈ defs.map Prod.fst ∨ (g.klassCache.lookup klass).isSome := by
  induction defs generalizing g with
  | nil =>
    obtain rfl : g = g' := by simpa using h
    simp
  | cons d defs ih =>
    simp only [List.foldlM_cons, Option.bind_eq_bind, Option.bind_eq_some_iff] at h
    obtain ⟨g₁, h1, h2⟩ := h
    rw [ih h2, cacheFields_lookup h1]
    simp only [List.map_cons, List.mem_cons]
    tauto

theorem foldlM_unions (defs : ClassDefs) {g g' : Globals} (h : defs.foldlM cacheFields g = some g')
    (klass : VALUE) : klass ∈ g'.unions ↔ klass ∈ g.unions ∨
      g.klassCache.lookup klass = none ∧
        ∃ c, defs.lookup klass = some c ∧ c.inheritsUnion = true := by
  induction defs generalizing g with
  | nil =>
    obtain rfl : g = g' := by simpa using h
    simp
  | cons d defs ih =>
    simp only [List.foldlM_cons, Option.bind_eq_bind, Option.bind_eq_some_iff] at h
    obtain ⟨g₁, h1, h2⟩ := h
    rw [ih h2]
    simp only [cacheFields, Option.map_eq_some_iff] at h1
    obtain ⟨⟨ret, g₂⟩, hfind, rfl⟩ := h1
    unfold findOrCreateFieldInfoMap at hfind
    cases hc : g.klassCache.lookup d.1 with
    | some fields =>
      simp only [hc, Option.some.injEq, Prod.mk.injEq] at hfind
      obtain ⟨-, rfl⟩ := hfind
      rw [SortedMap.lookup_cons_if]
      by_cases hk : klass = d.1
      · simp [hk, hc]
      · simp [hk]
    | none =>
      simp only [hc, Option.map_eq_some_iff, Prod.mk.injEq] at hfind
      obtain ⟨fields, -, -, rfl⟩ := hfind
      simp only [SortedMap.lookup_cons_if]
      by_cases hk : klass = d.1
      · subst hk
        cases hu : d.2.inheritsUnion <;> simp [hc, hu]
      · cases hu : d.2.inheritsUnion <;> simp [hk]

theorem foldlM_fields (defs : ClassDefs) {g g' : Globals} (h : defs.foldlM cacheFields g = some g')
    (klass : VALUE) : g'.klassCache.lookup klass = (g.klassCache.lookup klass).or
      ((defs.lookup klass).bind fun c => createFieldInfoMap c.fields) := by
  induction defs generalizing g with
  | nil =>
    obtain rfl : g = g' := by simpa using h
    simp
  | cons d defs ih =>
    simp only [List.foldlM_cons, Option.bind_eq_bind, Option.bind_eq_some_iff] at h
    obtain ⟨g₁, h1, h2⟩ := h
    rw [ih h2, SortedMap.lookup_cons_if]
    simp only [cacheFields, Option.map_eq_some_iff] at h1
    obtain ⟨⟨ret, g₂⟩, hfind, rfl⟩ := h1
    unfold findOrCreateFieldInfoMap at hfind
    cases hc : g.klassCache.lookup d.1 with
    | some fields =>
      simp only [hc, Option.some.injEq, Prod.mk.injEq] at hfind
      obtain ⟨-, rfl⟩ := hfind
      by_cases hk : klass = d.1
      · rw [hk, hc]
        rfl
      · rw [if_neg hk]
    | none =>
      simp only [hc, Option.map_eq_some_iff, Prod.mk.injEq] at hfind
      obtain ⟨fields, hcreate, -, rfl⟩ := hfind
      rw [SortedMap.lookup_cons_if]
      by_cases hk : klass = d.1
      · rw [if_pos hk, if_pos hk, hk, hc]
        exact hcreate.symm
      · rw [if_neg hk, if_neg hk]

structure Program where
  defs : ClassDefs
  globals : Globals
  loads : loadClasses defs = some globals
  loaded : globalsLoaded globals = true

namespace Program
variable (p : Program)

def findClass (klass : VALUE) : Option RubyClass := p.defs.lookup klass

theorem fields_loaded (klass : VALUE) (fields : FieldInfoMap)
    (h : p.globals.klassCache.lookup klass = some fields) :
    fieldsLoaded (fun k => (p.globals.klassCache.lookup k).isSome) fields = true := by
  have hall := p.loaded
  simp only [globalsLoaded, Bool.and_eq_true, List.all_eq_true] at hall
  exact hall.2 (klass, fields) (SortedMap.mem_of_lookup h)

theorem cached_iff (klass : VALUE) : (p.globals.klassCache.lookup klass).isSome ↔
    klass ∈ p.defs.map Prod.fst := by
  have h := foldlM_lookup p.defs p.loads klass
  simp only [List.lookup_nil, Option.isSome_none, Bool.false_eq_true, or_false] at h
  exact h

theorem class_of_cached {klass : VALUE} (h : (p.globals.klassCache.lookup klass).isSome) :
    ∃ c, p.findClass klass = some c := by
  have hm := (p.cached_iff klass).mp h
  rw [List.mem_map] at hm
  obtain ⟨⟨k, c⟩, hc, rfl⟩ := hm
  cases hl : p.defs.lookup k with
  | some c' => exact ⟨c', hl⟩
  | none =>
    rw [List.lookup_eq_none_iff] at hl
    simpa using hl (k, c) hc

theorem table_of_class {klass : VALUE} {c : RubyClass} (h : p.findClass klass = some c) :
    p.globals.klassCache.lookup klass = createFieldInfoMap c.fields := by
  have hfields := foldlM_fields p.defs p.loads klass
  rw [findClass] at h
  rw [h] at hfields
  exact hfields

theorem unions_of_class {klass : VALUE} {c : RubyClass} (h : p.findClass klass = some c) :
    decide (klass ∈ p.globals.unions) = c.inheritsUnion := by
  have hu := foldlM_unions p.defs p.loads klass
  rw [findClass] at h
  simp only [List.not_mem_nil, List.lookup_nil, true_and, false_or, h, Option.some.injEq,
    exists_eq_left'] at hu
  cases hc : c.inheritsUnion <;> simp [hu, hc]

/-- The extension after the program is loaded. -/
def schema : Schema where
  fieldInfoMap klass := p.globals.klassCache.lookup klass
  findClass := p.findClass
  isUnion klass := decide (klass ∈ p.globals.unions)
  className klass := ((p.findClass klass).map RubyClass.name).getD ""
  defaultValues klass :=
    ((p.findClass klass).map fun c => generateDefaultValues c.fields).getD []
  zero := by
    have h := p.loaded
    simp only [globalsLoaded, Bool.and_eq_true, Option.isNone_iff_eq_none] at h
    exact h.1
  classes klass h := by
    obtain ⟨c, hc⟩ := p.class_of_cached h
    exact ⟨c, hc, p.table_of_class hc, p.unions_of_class hc, by rw [hc]; rfl⟩
  generated klass fields h e he := by
    have hf := p.fields_loaded klass fields h
    simp only [fieldsLoaded, Bool.and_eq_true, List.all_eq_true] at hf
    exact generated_of_isGenerated _ e.2 (hf.1 e he).1
  ivarName klass fields h e he := by
    have hf := p.fields_loaded klass fields h
    simp only [fieldsLoaded, Bool.and_eq_true, List.all_eq_true, beq_iff_eq] at hf
    exact (hf.1 e he).2
  names klass fields h := by
    have hf := p.fields_loaded klass fields h
    simp only [fieldsLoaded, Bool.and_eq_true, decide_eq_true_eq] at hf
    exact hf.2

end Program

theorem schema_cached_iff (p : Program) (klass : VALUE) :
    p.schema.Cached klass ↔ klass ∈ p.defs.map Prod.fst := p.cached_iff klass

theorem exists_class (p : Program) {klass : VALUE} (h : p.schema.Cached klass) :
    ∃ c, p.findClass klass = some c := p.class_of_cached h

theorem schema_fields (p : Program) {klass : VALUE} {c : RubyClass}
    (h : p.findClass klass = some c) :
    p.schema.fieldInfoMap klass = createFieldInfoMap c.fields := p.table_of_class h

theorem schema_isUnion (p : Program) {klass : VALUE} {c : RubyClass}
    (h : p.findClass klass = some c) : p.schema.isUnion klass = c.inheritsUnion :=
  p.unions_of_class h

theorem class_of_defs (p : Program) {Φ : RubyClass → Prop} (h : ∀ d ∈ p.defs, Φ d.2)
    (klass : VALUE) : ∀ c ∈ p.schema.findClass klass, Φ c := by
  intro c hc
  exact h (klass, c) (SortedMap.mem_of_lookup hc)

theorem makes_of_defs (p : Program) (h : ∀ d ∈ p.defs, MakesBare d.2) (klass : VALUE) :
    Makes p.schema klass := class_of_defs p h klass

theorem unshadowed_of_defs (p : Program)
    (h : ∀ d ∈ p.defs, ∀ m ∈ calledMethods, m ∉ d.2.fieldNames) : Unshadowed p.schema :=
  class_of_defs p h

/-- A field definition as the compiler prints it: type, name, then what the type adds. -/
def fieldDef (t : TType) (name : String) (rest : List (Value × Value)) : Value :=
  .hash ((.sym "type", .int t.toInt) :: (.sym "name", rubyStr name) :: rest)

def elementDef (t : TType) (rest : List (Value × Value)) : Value :=
  .hash ((.sym "type", .int t.toInt) :: rest)

def optional : Value × Value := (.sym "optional", .bool true)

/-- Classes of `spec/user.thrift`. -/
def userClasses : ClassDefs :=
  [(8, ⟨"US", .struct,
      [(.int 1, fieldDef .I32 "id_i32" [optional]),
       (.int 2, fieldDef .STRING "id_s"
          [(.sym "default", rubyStr "id_s default"), (.sym "binary", .bool true), optional]),
       (.int 3, fieldDef .SET "string_set" [(.sym "element", elementDef .STRING []), optional]),
       (.int 4, fieldDef .SET "int_set" [(.sym "element", elementDef .I32 []), optional])]⟩),
   (16, ⟨"UN", .union,
      [(.int 1, fieldDef .I32 "id_i32" [optional]),
       (.int 2, fieldDef .STRING "id_s" [optional])]⟩),
   (24, ⟨"MiniRequired", .struct, [(.int 1, fieldDef .I32 "id_i32" [])]⟩),
   (32, ⟨"SS", .struct,
      [(.int 1, fieldDef .I32 "id_i32" [optional]),
       (.int 2, fieldDef .STRING "id_s" [optional]),
       (.int 3, fieldDef .STRUCT "us_i" [(.sym "class", .klass 8), optional]),
       (.int 5, fieldDef .LIST "s_l" [(.sym "element", elementDef .STRING []), optional]),
       (.int 6, fieldDef .MAP "mappy"
          [(.sym "key", elementDef .I32 []), (.sym "value", elementDef .STRING []), optional]),
       (.int 8, fieldDef .STRUCT "un_field" [(.sym "class", .klass 16), optional])]⟩),
   (40, ⟨"NotSS", .struct,
      [(.int 1, fieldDef .STRING "id_s" [optional]),
       (.int 3, fieldDef .I32 "id_i32" [optional])]⟩),
   (48, ⟨"NotSS_plus", .struct,
      [(.int 1, fieldDef .STRING "id_s" [optional]),
       (.int 2, fieldDef .STRING "id_s2" [optional]),
       (.int 3, fieldDef .I32 "id_i32" [optional])]⟩)]

def userProgram : Program where
  defs := userClasses
  globals := (loadClasses userClasses).get (by decide +kernel)
  loads := (Option.some_get _).symm
  loaded := by decide +kernel

end Sparsam.Loading
