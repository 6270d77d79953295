import Mathlib.Data.List.Nodup
import Mathlib.Data.List.Pairwise
import Sparsam.ProgramNames
import Sparsam.RubyNames

set_option autoImplicit false

/-!
# Distinct definitions and distinct Ruby constants

The parser keeps the type names of a program apart, and its constants, letter
for letter. The generator changes the case of first letters, uses one namespace
of several and puts types and constants side by side.
-/
namespace Sparsam.ConstantPaths
open ThriftTypes ThriftScope ThriftParser IncludeProcessing IncludeTermination IncludeCoverage
open ProgramTree ProgramNames RubyNames

section Names
variable {flags : Flags} {fuel : ℕ}

theorem namesApart_of_made {files : String → Option IdlFile} {m : ProgramNode}
    (h : Made files flags fuel m) :
    (typeNames m.program).Nodup ∧ (constNames m.program).Nodup := by
  obtain ⟨file, scopes, includes, scope, parent, pass, -, hpass, hprogram, -⟩ := h.pass
  have happart := namesApart_of_parse hpass
  rw [hprogram]
  refine ⟨?_, happart.consts⟩
  have hsub : (typeNames pass.program).Sublist pass.program.typenames := by
    unfold typeNames Program.typenames
    rw [List.append_assoc, List.append_assoc, ← List.append_assoc (pass.program.enums.map _)]
    exact (List.sublist_append_left ..).trans (List.sublist_append_right ..)
  exact hsub.nodup happart.types

end Names

section Paths

def definedNames (n : ProgramNode) : List String := typeNames n.program ++ constNames n.program

/-- No two definitions of these programs become the same constant, and none becomes a
    module that holds others. -/
structure DistinctConstants (programs : List ProgramNode) : Prop where
  distinct : (programs.flatMap definedPaths).Nodup
  modules : ∀ n ∈ programs, ∀ m ∈ programs, ∀ path ∈ definedPaths n,
    ¬ path <+: rubyModules m.program.info

/-- What the names of the programs must not have in common, up to the case of first
    letters. -/
structure NoClash (programs : List ProgramNode) : Prop where
  types : ∀ n ∈ programs, ∀ x ∈ typeNames n.program, ∀ y ∈ typeNames n.program,
    SameUpToCase x y → x = y
  consts : ∀ n ∈ programs, ∀ x ∈ constNames n.program, ∀ y ∈ constNames n.program,
    SameUpToCase x y → x = y
  kinds : ∀ n ∈ programs, ∀ x ∈ typeNames n.program, ∀ y ∈ constNames n.program,
    ¬ SameUpToCase x y
  across : ∀ n ∈ programs, ∀ m ∈ programs, n.path ≠ m.path →
    SameModules n.program.info m.program.info →
      ∀ x ∈ definedNames n, ∀ y ∈ definedNames m, ¬ SameUpToCase x y
  modules : ∀ n ∈ programs, ∀ m ∈ programs, ∀ x ∈ definedNames n,
    ∀ parts, parts <+: namespaceParts m.program.info →
      ¬ List.Forall₂ SameUpToCase (namespaceParts n.program.info ++ [x]) parts

theorem sameModules_refl (p : TProgram) : SameModules p p := by
  unfold SameModules
  rw [← map_capitalize_eq_iff]

theorem path_inj_iff {n : ProgramNode} {x y : String} :
    constantPath n.program.info x = constantPath n.program.info y ↔ SameUpToCase x y := by
  rw [constantPath_eq_iff]
  exact and_iff_right (sameModules_refl _)

theorem definedPaths_nodup_iff {n : ProgramNode} (htypes : (typeNames n.program).Nodup)
    (hconsts : (constNames n.program).Nodup) :
    (definedPaths n).Nodup ↔
      (∀ x ∈ typeNames n.program, ∀ y ∈ typeNames n.program, SameUpToCase x y → x = y) ∧
      (∀ x ∈ constNames n.program, ∀ y ∈ constNames n.program, SameUpToCase x y → x = y) ∧
      ∀ x ∈ typeNames n.program, ∀ y ∈ constNames n.program, ¬ SameUpToCase x y := by
  unfold definedPaths
  rw [List.map_append, List.nodup_append, List.nodup_map_iff_inj_on htypes,
    List.nodup_map_iff_inj_on hconsts]
  simp only [List.mem_map, forall_exists_index, and_imp, forall_apply_eq_imp_iff₂, path_inj_iff,
    ne_eq]

theorem mem_definedPaths {n : ProgramNode} {path : List String} :
    path ∈ definedPaths n ↔ ∃ x ∈ definedNames n, constantPath n.program.info x = path :=
  List.mem_map

theorem disjoint_iff (n m : ProgramNode) :
    List.Disjoint (definedPaths n) (definedPaths m) ↔
      (SameModules n.program.info m.program.info →
        ∀ x ∈ definedNames n, ∀ y ∈ definedNames m, ¬ SameUpToCase x y) := by
  constructor
  · intro h hmodules x hx y hy hsame
    have hpath := (constantPath_eq_iff n.program.info m.program.info x y).mpr ⟨hmodules, hsame⟩
    exact h (mem_definedPaths.mpr ⟨x, hx, rfl⟩) (mem_definedPaths.mpr ⟨y, hy, hpath.symm⟩)
  · intro h path hn hm
    obtain ⟨x, hx, rfl⟩ := mem_definedPaths.mp hn
    obtain ⟨y, hy, hpath⟩ := mem_definedPaths.mp hm
    obtain ⟨hmodules, hsame⟩ := (constantPath_eq_iff _ _ _ _).mp hpath.symm
    exact h hmodules x hx y hy hsame

theorem prefix_rubyModules_iff (n m : ProgramNode) (x : String) :
    constantPath n.program.info x <+: rubyModules m.program.info ↔
      ∃ parts, parts <+: namespaceParts m.program.info ∧
        List.Forall₂ SameUpToCase (namespaceParts n.program.info ++ [x]) parts := by
  have hpath : constantPath n.program.info x =
      (namespaceParts n.program.info ++ [x]).map capitalize := by
    rw [List.map_append]
    rfl
  unfold rubyModules
  rw [List.prefix_map_iff, hpath]
  apply exists_congr
  intro parts
  rw [map_capitalize_eq_iff]

theorem modules_iff (n m : ProgramNode) :
    (∀ path ∈ definedPaths n, ¬ path <+: rubyModules m.program.info) ↔
      ∀ x ∈ definedNames n, ∀ parts, parts <+: namespaceParts m.program.info →
        ¬ List.Forall₂ SameUpToCase (namespaceParts n.program.info ++ [x]) parts := by
  constructor
  · intro h x hx parts hparts hsame
    apply h _ (mem_definedPaths.mpr ⟨x, hx, rfl⟩)
    exact (prefix_rubyModules_iff n m x).mpr ⟨parts, hparts, hsame⟩
  · intro h path hpath hprefix
    obtain ⟨x, hx, rfl⟩ := mem_definedPaths.mp hpath
    obtain ⟨parts, hparts, hsame⟩ := (prefix_rubyModules_iff n m x).mp hprefix
    exact h x hx parts hparts hsame

theorem distinctConstants_iff {programs : List ProgramNode}
    (hpaths : (programs.map ProgramNode.path).Nodup)
    (hnames : ∀ n ∈ programs, (typeNames n.program).Nodup ∧ (constNames n.program).Nodup) :
    DistinctConstants programs ↔ NoClash programs := by
  have hown : ∀ n ∈ programs, _ :=
    fun n hn => definedPaths_nodup_iff (hnames n hn).1 (hnames n hn).2
  have hne : programs.Pairwise fun n m => n.path ≠ m.path := List.pairwise_map.mp hpaths
  constructor
  · rintro ⟨hdistinct, hmodules⟩
    rw [List.nodup_flatMap] at hdistinct
    obtain ⟨hone, htwo⟩ := hdistinct
    have hparts := fun n hn => (hown n hn).mp (hone n hn)
    have hsymm : Std.Symm (Function.onFun List.Disjoint definedPaths) :=
      ⟨fun _ _ h => h.symm⟩
    refine ⟨fun n hn => (hparts n hn).1, fun n hn => (hparts n hn).2.1,
      fun n hn => (hparts n hn).2.2, fun n hn m hm hpath => ?_,
      fun n hn m hm => (modules_iff n m).mp (hmodules n hn m hm)⟩
    have hnm : n ≠ m := fun heq => hpath (congrArg ProgramNode.path heq)
    exact (disjoint_iff n m).mp (htwo.forall hn hm hnm)
  · rintro ⟨htypes, hconsts, hkinds, hacross, hmodules⟩
    refine ⟨?_, fun n hn m hm => (modules_iff n m).mpr (hmodules n hn m hm)⟩
    rw [List.nodup_flatMap]
    refine ⟨fun n hn => (hown n hn).mpr ⟨htypes n hn, hconsts n hn, hkinds n hn⟩, ?_⟩
    refine hne.imp_of_mem fun hn hm hpath => ?_
    exact (disjoint_iff _ _).mpr (hacross _ hn _ hm hpath)

end Paths

section Main

/-- The programs of an accepted tree become distinct constants exactly when their names
    do not clash once the case of first letters is left out. -/
theorem distinctConstants_iff_noClash (files : String → Option IdlFile)
    (includeFile : String → String → String) (flags : Flags) (fuel depth : ℕ) (root : String)
    (r : ProgramNode × Option Scope × ProgramToScope)
    (accepted : (parse files includeFile flags fuel true depth root none []).run = some (.ok r)) :
    DistinctConstants (visits true r.1 []).1 ↔ NoClash (visits true r.1 []).1 := by
  apply distinctConstants_iff (visits_nodup accepted)
  exact fun n hn => namesApart_of_made (visits_made accepted n hn)

/-- `a.thrift` has `enum Color` and `const i32 limit`, and includes `b.thrift` with
    `struct point`, in other namespaces. -/
def apart (p : String) : Option IdlFile :=
  if p = "a.thrift" then
    some {
      includes := ["b.thrift"]
      namespaces := [("rb", "shop.colors")]
      definitions := [.enum "Color" [("red", none)],
        .const (.baseType .TYPE_I32 false) "limit" { valType := .CV_INTEGER, intVal := 3 }] }
  else if p = "b.thrift" then
    some { namespaces := [("rb", "shop.points")], definitions := [.struct false "point" []] }
  else none

def constantsOf (n : ProgramNode) : List (List String) × List String :=
  (definedPaths n, rubyModules n.program.info)

def generatedConstants (x : Parsing (ProgramNode × Option Scope × ProgramToScope)) :
    Option (Except CompileError (List (List (List String) × List String))) :=
  x.run.map fun r => r.map fun r => (visits true r.1 []).1.map constantsOf

theorem generatedConstants_eq {x : Parsing (ProgramNode × Option Scope × ProgramToScope)}
    {r : ProgramNode × Option Scope × ProgramToScope} (hr : x.run = some (.ok r))
    {constants : List (List (List String) × List String)}
    (h : generatedConstants x = some (.ok constants)) :
    (visits true r.1 []).1.map constantsOf = constants := by
  unfold generatedConstants at h
  rw [hr] at h
  exact Except.ok.inj (Option.some.inj h)

theorem flatMap_definedPaths (programs : List ProgramNode) :
    programs.flatMap definedPaths = (programs.map constantsOf).flatMap Prod.fst := by
  rw [List.flatMap_map]
  rfl

theorem distinctConstants_of_map {programs : List ProgramNode}
    {constants : List (List (List String) × List String)} (h : programs.map constantsOf = constants)
    (hdistinct : (constants.flatMap Prod.fst).Nodup)
    (hmodules : ∀ a ∈ constants, ∀ b ∈ constants, ∀ path ∈ a.1, ¬ path <+: b.2) :
    DistinctConstants programs := by
  subst h
  refine ⟨flatMap_definedPaths programs ▸ hdistinct, fun n hn m hm path hpath => ?_⟩
  exact hmodules _ (List.mem_map_of_mem hn) _ (List.mem_map_of_mem hm) path hpath

theorem apart_noClash : ∃ r,
    (parse apart (fun _ file => file) {} 10 true 2 "a.thrift" none []).run = some (.ok r) ∧
      NoClash (visits true r.1 []).1 := by
  obtain ⟨r, hr⟩ := accepted_of_isOk
    (x := parse apart (fun _ file => file) {} 10 true 2 "a.thrift" none []) (by decide +kernel)
  have hconstants : generatedConstants
      (parse apart (fun _ file => file) {} 10 true 2 "a.thrift" none []) =
        some (.ok [([["Shop", "Points", "Point"]], ["Shop", "Points"]),
          ([["Shop", "Colors", "Color"], ["Shop", "Colors", "Limit"]], ["Shop", "Colors"])]) := by
    decide +kernel
  refine ⟨r, hr, (distinctConstants_iff_noClash _ _ _ _ _ _ r hr).mp ?_⟩
  exact distinctConstants_of_map (generatedConstants_eq hr hconstants) (by decide) (by decide)

/-- `struct foo {}` and `struct Foo {}` -/
def fooFoo (p : String) : Option IdlFile :=
  if p = "a.thrift" then
    some { definitions := [.struct false "foo" [], .struct false "Foo" []] }
  else none

theorem fooFoo_not_distinct : ∃ r,
    (parse fooFoo (fun _ file => file) {} 10 true 1 "a.thrift" none []).run = some (.ok r) ∧
      ¬ DistinctConstants (visits true r.1 []).1 := by
  obtain ⟨r, hr⟩ := accepted_of_isOk
    (x := parse fooFoo (fun _ file => file) {} 10 true 1 "a.thrift" none []) (by decide +kernel)
  refine ⟨r, hr, fun h => ?_⟩
  have hconstants : generatedConstants
      (parse fooFoo (fun _ file => file) {} 10 true 1 "a.thrift" none []) =
        some (.ok [([["Foo"], ["Foo"]], [])]) := by decide +kernel
  have hdistinct := h.distinct
  rw [flatMap_definedPaths, generatedConstants_eq hr hconstants] at hdistinct
  revert hdistinct
  decide

end Main

end Sparsam.ConstantPaths
