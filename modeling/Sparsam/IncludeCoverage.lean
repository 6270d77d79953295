import Sparsam.IncludeTermination

set_option autoImplicit false

/-!
# The order of generation over the tree `parse` leaves

`parse` gives an include list only to the first program it meets of each file,
`generate` takes the first program it meets of each file. Both go depth first
and both record a file after what is below it, so they meet the same programs:
as long as `generated_files` and the cache hold the same paths, a program whose
file is new to one is new to the other.
-/
namespace Sparsam.IncludeCoverage
open ThriftTypes ThriftScope ThriftParser IncludeProcessing IncludeTermination

def keys (known : ProgramToScope) : List String := known.map Prod.fst

theorem lookup_eq_none_iff (known : ProgramToScope) (p : String) :
    known.lookup p = none ↔ p ∉ keys known := by
  unfold keys
  induction known with
  | nil => simp
  | cons e known ih =>
    rw [SortedMap.lookup_cons_if]
    by_cases h : p = e.1 <;> simp [h, ih]

section
variable (files : String → Option IdlFile) (includeFile : String → String → String)

/-- With a file the cache holds what the file includes. -/
def Closed (known : ProgramToScope) : Prop :=
  ∀ p ∈ keys known, ∀ q ∈ includesOf files includeFile p, q ∈ keys known

/-- What parsing the files `paths` does to the cache. -/
structure Seen (paths : List String) (known known' : ProgramToScope) : Prop where
  kept : ∀ p ∈ keys known, p ∈ keys known'
  seen : ∀ p ∈ paths, p ∈ keys known'
  new : ∀ p ∈ keys known', p ∈ keys known ∨
    ∃ q ∈ paths, Relation.ReflTransGen (Includes files includeFile) q p
  closed : Closed files includeFile known → Closed files includeFile known'

variable {files includeFile}

theorem Seen.nil (known : ProgramToScope) : Seen files includeFile [] known known :=
  ⟨fun _ h => h, by simp, fun _ h => .inl h, fun h => h⟩

theorem Seen.cons {p : String} {paths : List String} {known known' known'' : ProgramToScope}
    (h : Seen files includeFile [p] known known')
    (hs : Seen files includeFile paths known' known'') :
    Seen files includeFile (p :: paths) known known'' := by
  refine ⟨fun q hq => hs.kept q (h.kept q hq), fun q hq => ?_, fun q hq => ?_,
    fun hc => hs.closed (h.closed hc)⟩
  · rcases List.mem_cons.mp hq with rfl | hq
    · exact hs.kept q (h.seen q (by simp))
    · exact hs.seen q hq
  · rcases hs.new q hq with hq | ⟨r, hr, hreach⟩
    · rcases h.new q hq with hq | ⟨r, hr, hreach⟩
      · exact .inl hq
      · rw [List.mem_singleton] at hr
        subst hr
        exact .inr ⟨r, by simp, hreach⟩
    · exact .inr ⟨r, by simp [hr], hreach⟩

theorem Seen.enter {p : String} {known known' : ProgramToScope}
    (h : Seen files includeFile (includesOf files includeFile p) known known') (entry : Known) :
    Seen files includeFile [p] known ((p, entry) :: known') := by
  refine ⟨fun q hq => ?_, fun q hq => ?_, fun q hq => ?_, fun hc q hq r hr => ?_⟩
  · exact List.mem_cons_of_mem _ (h.kept q hq)
  · rw [List.mem_singleton] at hq
    simp [keys, hq]
  · rcases List.mem_cons.mp hq with hq | hq
    · exact .inr ⟨p, by simp, by rw [hq]⟩
    · rcases h.new q hq with hq | ⟨r, hr, hreach⟩
      · exact .inl hq
      · exact .inr ⟨p, by simp, Relation.ReflTransGen.head hr hreach⟩
  · rcases List.mem_cons.mp hq with hq | hq
    · rw [hq] at hr
      exact List.mem_cons_of_mem _ (h.seen r hr)
    · exact List.mem_cons_of_mem _ (h.closed hc q hq r hr)

variable {flags : Flags} {fuel : ℕ}

theorem parseDefinitions_node {path : String} {nodes : List ProgramNode} {known : Known}
    {parent : Option Scope} {r : ProgramNode × Option Scope}
    (h : parseDefinitions files flags fuel path nodes known parent = .ok r) :
    r.1.path = path ∧ r.1.includes = nodes := by
  obtain ⟨file, -, h⟩ := bind_ok h
  obtain ⟨p, hp, h⟩ := bind_ok h
  rw [← Except.ok.inj h]
  refine ⟨?_, rfl⟩
  change p.program.info.path = path
  rw [parseProgram_info hp]

theorem parseIncludes_seen {one : String → Option Scope → ProgramToScope →
      Parsing (ProgramNode × Option Scope × ProgramToScope)}
    (hone : ∀ path parent known r, (one path parent known).run = some (.ok r) →
      r.1.path = path ∧ Seen files includeFile [path] known r.2.2)
    {paths : List String} {scope : Scope} {known : ProgramToScope}
    {r : List ProgramNode × Scope × ProgramToScope}
    (h : (parseIncludes one paths scope known).run = some (.ok r)) :
    r.1.map ProgramNode.path = paths ∧ Seen files includeFile paths known r.2.2 := by
  induction paths generalizing scope known r with
  | nil =>
    obtain rfl := Except.ok.inj (Option.some.inj h)
    exact ⟨rfl, Seen.nil known⟩
  | cons p paths ih =>
    obtain ⟨a, ha, h⟩ := run_bind_ok h
    obtain ⟨b, hb, h⟩ := run_bind_ok h
    obtain rfl := Except.ok.inj (Option.some.inj h)
    obtain ⟨hpath, hseen⟩ := hone p _ _ a ha
    obtain ⟨hpaths, hrest⟩ := ih hb
    exact ⟨by rw [List.map_cons, hpath, hpaths], hseen.cons hrest⟩

theorem parse_seen (depth : ℕ) {path : String} {parent : Option Scope} {known : ProgramToScope}
    {r : ProgramNode × Option Scope × ProgramToScope}
    (h : (parse files includeFile flags fuel true depth path parent known).run = some (.ok r)) :
    r.1.path = path ∧ Seen files includeFile [path] known r.2.2 := by
  induction depth generalizing path parent known r with
  | zero => cases h
  | succ depth ih =>
    unfold parse at h
    simp only [↓reduceIte] at h
    cases hfound : known.lookup path with
    | some found =>
      rw [hfound] at h
      obtain ⟨a, ha, h⟩ := run_bind_ok h
      obtain rfl := Except.ok.inj (Option.some.inj h)
      refine ⟨(parseDefinitions_node (Option.some.inj ha)).1, fun _ h => h, fun p hp => ?_,
        fun _ h => .inl h, fun h => h⟩
      rw [List.mem_singleton] at hp
      by_contra hnot
      rw [hp, ← lookup_eq_none_iff, hfound] at hnot
      cases hnot
    | none =>
      rw [hfound] at h
      obtain ⟨paths, hpaths, h⟩ := run_bind_ok h
      obtain rfl := scanIncludes_ok (Option.some.inj hpaths)
      obtain ⟨a, hloop, h⟩ := run_bind_ok h
      obtain ⟨b, hb, h⟩ := run_bind_ok h
      obtain rfl := Except.ok.inj (Option.some.inj h)
      have hseen := (parseIncludes_seen (fun _ _ _ _ => ih) hloop).2
      exact ⟨(parseDefinitions_node (Option.some.inj hb)).1, hseen.enter _⟩

/-- What a step of `visits` yields while the generated files are those in the
    cache, before the step and after it. -/
structure InStep (files : String → Option IdlFile) (includeFile : String → String → String)
    (known' : ProgramToScope) (g : List String) (out : List ProgramNode × List String) :
    Prop where
  agree : ∀ p, p ∈ out.2 ↔ p ∈ keys known'
  added : ∀ p, p ∈ out.2 ↔ p ∈ g ∨ p ∈ out.1.map ProgramNode.path
  nodup : (out.1.map ProgramNode.path).Nodup
  fresh : ∀ p ∈ out.1.map ProgramNode.path, p ∉ g
  complete : ∀ n ∈ out.1, n.includes.map ProgramNode.path = includesOf files includeFile n.path

theorem InStep.append {known' known'' : ProgramToScope} {g : List String}
    {a b : List ProgramNode × List String} (ha : InStep files includeFile known' g a)
    (hb : InStep files includeFile known'' a.2 b) :
    InStep files includeFile known'' g (a.1 ++ b.1, b.2) := by
  refine ⟨hb.agree, fun p => ?_, ?_, fun p hp => ?_, fun n hn => ?_⟩
  · rw [hb.added, ha.added, List.map_append, List.mem_append, or_assoc]
  · rw [List.map_append, List.nodup_append]
    refine ⟨ha.nodup, hb.nodup, fun p hp q hq heq => ?_⟩
    subst heq
    exact hb.fresh p hq ((ha.added p).mpr (.inr hp))
  · rw [List.map_append, List.mem_append] at hp
    rcases hp with hp | hp
    · exact ha.fresh p hp
    · exact fun hg => hb.fresh p hp ((ha.added p).mpr (.inl hg))
  · rcases List.mem_append.mp hn with hn | hn
    · exact ha.complete n hn
    · exact hb.complete n hn

theorem InStep.visited {known' : ProgramToScope} {g : List String}
    {out : List ProgramNode × List String} (h : InStep files includeFile known' g out)
    {n : ProgramNode} (hnew : n.path ∉ out.2)
    (hincludes : n.includes.map ProgramNode.path = includesOf files includeFile n.path)
    (entry : Known) : InStep files includeFile ((n.path, entry) :: known') g
      (out.1 ++ [n], n.path :: out.2) := by
  refine ⟨fun p => ?_, fun p => ?_, ?_, fun p hp => ?_, fun m hm => ?_⟩
  · rw [List.mem_cons, h.agree]
    simp [keys]
  · rw [List.mem_cons, h.added, List.map_append, List.mem_append, List.map_singleton,
      List.mem_singleton]
    tauto
  · rw [List.map_append, List.nodup_append]
    refine ⟨h.nodup, by simp, fun p hp q hq heq => ?_⟩
    rw [List.map_singleton, List.mem_singleton] at hq
    rw [heq, hq] at hp
    exact hnew ((h.added n.path).mpr (.inr hp))
  · rw [List.map_append, List.mem_append, List.map_singleton, List.mem_singleton] at hp
    rcases hp with hp | rfl
    · exact h.fresh p hp
    · exact fun hg => hnew ((h.added n.path).mpr (.inl hg))
  · rcases List.mem_append.mp hm with hm | hm
    · exact h.complete m hm
    · rw [List.mem_singleton] at hm
      rw [hm, hincludes]

theorem visits_eq (n : ProgramNode) (g : List String) :
    visits true n g =
      if g.contains n.path then ([], g)
      else ((visitsAll true n.includes g).1 ++ [n],
        n.path :: (visitsAll true n.includes g).2) := by
  obtain ⟨program, includes, scope, below⟩ := n
  unfold visits ProgramNode.path
  split <;> rfl

theorem visitsAll_inStep {one : String → Option Scope → ProgramToScope →
      Parsing (ProgramNode × Option Scope × ProgramToScope)} {paths : List String}
    (hone : ∀ p ∈ paths, ∀ parent known r g, (one p parent known).run = some (.ok r) →
      (∀ q, q ∈ g ↔ q ∈ keys known) → InStep files includeFile r.2.2 g (visits true r.1 g))
    {scope : Scope} {known : ProgramToScope} {r : List ProgramNode × Scope × ProgramToScope}
    (h : (parseIncludes one paths scope known).run = some (.ok r)) {g : List String}
    (hg : ∀ q, q ∈ g ↔ q ∈ keys known) :
    InStep files includeFile r.2.2 g (visitsAll true r.1 g) := by
  induction paths generalizing scope known r g with
  | nil =>
    obtain rfl := Except.ok.inj (Option.some.inj h)
    unfold visitsAll
    exact ⟨hg, by simp, by simp, by simp, by simp⟩
  | cons p paths ih =>
    obtain ⟨a, ha, h⟩ := run_bind_ok h
    obtain ⟨b, hb, h⟩ := run_bind_ok h
    obtain rfl := Except.ok.inj (Option.some.inj h)
    have hfirst := hone p (by simp) _ _ a g ha hg
    have hrest := ih (fun q hq => hone q (by simp [hq])) hb hfirst.agree
    unfold visitsAll
    exact hfirst.append hrest

theorem visits_inStep (depth : ℕ) {path : String} (hacyclic : Acyclic files includeFile path)
    {parent : Option Scope} {known : ProgramToScope}
    {r : ProgramNode × Option Scope × ProgramToScope}
    (h : (parse files includeFile flags fuel true depth path parent known).run = some (.ok r))
    {g : List String} (hg : ∀ q, q ∈ g ↔ q ∈ keys known) :
    InStep files includeFile r.2.2 g (visits true r.1 g) := by
  induction depth generalizing path parent known r g with
  | zero => cases h
  | succ depth ih =>
    unfold parse at h
    simp only [↓reduceIte] at h
    cases hfound : known.lookup path with
    | some found =>
      -- Known to the cache, so generated: the program without includes is skipped.
      rw [hfound] at h
      obtain ⟨a, ha, h⟩ := run_bind_ok h
      obtain rfl := Except.ok.inj (Option.some.inj h)
      have hmem : g.contains a.1.path = true := by
        rw [(parseDefinitions_node (Option.some.inj ha)).1, List.contains_iff_mem, hg]
        by_contra hnot
        rw [← lookup_eq_none_iff, hfound] at hnot
        cases hnot
      rw [visits_eq, if_pos hmem]
      exact ⟨hg, by simp, by simp, by simp, by simp⟩
    | none =>
      rw [hfound] at h
      obtain ⟨paths, hpaths, h⟩ := run_bind_ok h
      obtain rfl := scanIncludes_ok (Option.some.inj hpaths)
      obtain ⟨a, hloop, h⟩ := run_bind_ok h
      obtain ⟨b, hb, h⟩ := run_bind_ok h
      obtain rfl := Except.ok.inj (Option.some.inj h)
      obtain ⟨hpath, hnodes⟩ := parseDefinitions_node (Option.some.inj hb)
      obtain ⟨hincludes, hseen⟩ := parseIncludes_seen (fun _ _ _ _ => parse_seen depth) hloop
      have hnot := (lookup_eq_none_iff known path).mp hfound
      have hstep := visitsAll_inStep (fun q hq _ _ _ _ hr hg' =>
        ih (hacyclic.child hq) hr hg') hloop hg
      have hnew : path ∉ (visitsAll true a.1 g).2 := by
        rw [hstep.agree]
        intro hmem
        rcases hseen.new path hmem with hmem | ⟨q, hq, hback⟩
        · exact hnot hmem
        · exact hacyclic path .refl (Relation.TransGen.head' hq hback)
      have hskip : g.contains b.1.path = false := by
        rw [hpath, List.contains_eq_mem, decide_eq_false_iff_not, hg]
        exact hnot
      rw [visits_eq, hskip, if_neg Bool.false_ne_true, hnodes]
      rw [← hpath] at hnew ⊢
      exact hstep.visited hnew (by rw [hnodes, hincludes, hpath]) _

/-- The paths the `include` lines of a file resolve to, each as it stands there. -/
def directives (includeFile : String → String → String) (path : String) (file : IdlFile) :
    List String :=
  file.includes.map (includeFile (directoryName path))

theorem includesOf_eq_directives {p : String} {file : IdlFile} (hfile : files p = some file)
    (resolves : ∀ inc ∈ file.includes, includeFile (directoryName p) inc ≠ "") :
    includesOf files includeFile p = directives includeFile p file := by
  unfold includesOf directives
  rw [hfile]
  rw [List.filter_eq_self]
  intro q hq
  obtain ⟨inc, hinc, rfl⟩ := List.mem_map.mp hq
  simpa using resolves inc hinc

/-- From the empty cache, `parse` leaves the files that can be reached. -/
theorem mem_keys_of_parse {root : String} {depth : ℕ}
    {r : ProgramNode × Option Scope × ProgramToScope}
    (h : (parse files includeFile flags fuel true depth root none []).run = some (.ok r))
    (p : String) : p ∈ keys r.2.2 ↔ Relation.ReflTransGen (Includes files includeFile) root p := by
  obtain ⟨-, hseen⟩ := parse_seen depth h
  constructor
  · intro hp
    rcases hseen.new p hp with hp | ⟨q, hq, hreach⟩
    · exact absurd hp List.not_mem_nil
    · rw [List.mem_singleton] at hq
      exact hq ▸ hreach
  · intro hreach
    have hclosed := hseen.closed fun p hp => absurd hp List.not_mem_nil
    induction hreach with
    | refl => exact hseen.seen root (by simp)
    | tail _ hnext ih => exact hclosed _ ih _ hnext

theorem mem_visits {root : String} {depth : ℕ} (acyclic : Acyclic files includeFile root)
    {r : ProgramNode × Option Scope × ProgramToScope}
    (h : (parse files includeFile flags fuel true depth root none []).run = some (.ok r))
    (p : String) : p ∈ (visits true r.1 []).1.map ProgramNode.path ↔
      Relation.ReflTransGen (Includes files includeFile) root p := by
  have hstep := visits_inStep depth acyclic h (g := []) (by simp [keys])
  rw [← mem_keys_of_parse h, ← hstep.agree, hstep.added]
  simp

end

end Sparsam.IncludeCoverage
