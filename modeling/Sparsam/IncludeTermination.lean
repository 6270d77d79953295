import Sparsam.FiniteGraph
import Sparsam.IncludeProcessing

set_option autoImplicit false

/-!
# When the recursion over the includes returns

The cache takes a path only after the recursion below it has returned. So it
bounds the work on a graph without cycles and never stops a cycle: `parse`
returns exactly when no include cycle can be reached from the root.
-/
namespace Sparsam.IncludeTermination
open ThriftTypes ThriftScope ThriftParser IncludeProcessing

def Returns {α : Type} (x : Parsing α) : Prop := x.run.isSome = true

section Returns
variable {α β : Type}

theorem returns_pure (a : α) : Returns (pure a : Parsing α) := rfl

theorem returns_ofCompile (x : Compile α) : Returns (ofCompile x) := rfl

theorem Returns.bind {x : Parsing α} {f : α → Parsing β} (hx : Returns x)
    (hf : ∀ a, x.run = some (.ok a) → Returns (f a)) : Returns (x >>= f) := by
  unfold Returns at hx ⊢
  rw [ExceptT.run_bind]
  obtain ⟨r, hr⟩ := Option.isSome_iff_exists.mp hx
  rw [hr]
  cases r with
  | error e => rfl
  | ok a => exact hf a hr

theorem run_of_ok {x : Parsing α} {f : α → Parsing β} {a : α} (h : x.run = some (.ok a)) :
    (x >>= f).run = (f a).run := by
  rw [ExceptT.run_bind, h]
  rfl

theorem run_bind_ok {x : Parsing α} {f : α → Parsing β} {b : β}
    (h : (x >>= f).run = some (.ok b)) :
    ∃ a, x.run = some (.ok a) ∧ (f a).run = some (.ok b) := by
  rw [ExceptT.run_bind] at h
  cases hx : x.run with
  | none =>
    rw [hx] at h
    cases h
  | some r =>
    rw [hx] at h
    cases r with
    | error e => cases h
    | ok a => exact ⟨a, rfl, h⟩

theorem run_bind_error {x : Parsing α} {f : α → Parsing β} {e : CompileError}
    (h : (x >>= f).run = some (.error e)) :
    x.run = some (.error e) ∨ ∃ a, x.run = some (.ok a) ∧ (f a).run = some (.error e) := by
  rw [ExceptT.run_bind] at h
  cases hx : x.run with
  | none =>
    rw [hx] at h
    cases h
  | some r =>
    rw [hx] at h
    cases r with
    | error e' =>
      have he := Except.error.inj (Option.some.inj h)
      subst he
      exact .inl rfl
    | ok a => exact .inr ⟨a, rfl, h⟩

end Returns

section Graph
variable (files : String → Option IdlFile) (includeFile : String → String → String)

def includesOf (path : String) : List String :=
  match files path with
  | none => []
  | some file => (file.includes.map (includeFile (directoryName path))).filter (· ≠ "")

def Includes (p q : String) : Prop := q ∈ includesOf files includeFile p

/-- No cycle of includes is reachable from the file. -/
def Acyclic (root : String) : Prop :=
  ∀ p, Relation.ReflTransGen (Includes files includeFile) root p →
    ¬ Relation.TransGen (Includes files includeFile) p p

variable {files includeFile}

theorem Acyclic.child {p q : String} (h : Acyclic files includeFile p)
    (hq : Includes files includeFile p q) : Acyclic files includeFile q :=
  fun r hr => h r (Relation.ReflTransGen.head hq hr)

variable (files includeFile)

open Classical in
/-- How many of the files can be reached from this one. -/
noncomputable def height (S : Finset String) (p : String) : ℕ :=
  (S.filter fun q => Relation.ReflTransGen (Includes files includeFile) p q).card

variable {files includeFile}

theorem height_lt {S : Finset String} {p q : String} (hp : p ∈ S)
    (h : Acyclic files includeFile p) (hq : Includes files includeFile p q) :
    height files includeFile S q < height files includeFile S p :=
  FiniteGraph.card_reachable_lt hp h hq

end Graph

section Terminates
variable {files : String → Option IdlFile} {includeFile : String → String → String}
variable {flags : Flags} {fuel : ℕ}

theorem scanIncludes_ok {path : String} {paths : List String}
    (h : scanIncludes files includeFile flags path = .ok paths) :
    paths = includesOf files includeFile path := by
  unfold scanIncludes openFile at h
  unfold includesOf
  cases hfile : files path with
  | none =>
    rw [hfile] at h
    cases h
  | some file =>
    rw [hfile] at h
    change (file.definitions.forM (scanDefinition flags) >>= fun _ => _) = _ at h
    cases hscan : file.definitions.forM (scanDefinition flags) with
    | error e =>
      rw [hscan] at h
      cases h
    | ok u =>
      rw [hscan] at h
      exact (Except.ok.inj h).symm

theorem returns_parseIncludes {one : String → Option Scope → ProgramToScope →
      Parsing (ProgramNode × Option Scope × ProgramToScope)} {paths : List String}
    (h : ∀ p ∈ paths, ∀ parent known, Returns (one p parent known)) (scope : Scope)
    (known : ProgramToScope) : Returns (parseIncludes one paths scope known) := by
  induction paths generalizing scope known with
  | nil => exact returns_pure _
  | cons p paths ih =>
    refine (h p (by simp) _ _).bind fun r _ => ?_
    refine (ih (fun q hq => h q (by simp [hq])) _ _).bind fun s _ => ?_
    exact returns_pure _

theorem returns_parse (useCache : Bool) {S : Finset String}
    (closed : ∀ p ∈ S, ∀ q ∈ includesOf files includeFile p, q ∈ S) (depth : ℕ) {path : String}
    (hmem : path ∈ S) (hacyclic : Acyclic files includeFile path)
    (hdepth : height files includeFile S path < depth) (parent : Option Scope)
    (known : ProgramToScope) :
    Returns (parse files includeFile flags fuel useCache depth path parent known) := by
  induction depth generalizing path parent known with
  | zero => omega
  | succ depth ih =>
    unfold parse
    split
    · exact (returns_ofCompile _).bind fun _ _ => returns_pure _
    · refine (returns_ofCompile _).bind fun paths hpaths => ?_
      have hincludes := scanIncludes_ok (Option.some.inj hpaths)
      refine Returns.bind ?_ fun _ _ => ?_
      · apply returns_parseIncludes
        intro q hq parent known
        rw [hincludes] at hq
        have hlt := height_lt hmem hacyclic hq
        exact ih (closed path hmem q hq) (hacyclic.child hq) (by omega) parent known
      · exact (returns_ofCompile _).bind fun _ _ => returns_pure _

end Terminates

section Diverges
variable {files : String → Option IdlFile} {includeFile : String → String → String}
variable {flags : Flags} {fuel : ℕ}

/-- A cycle of includes can be reached from the file. -/
def ReachesCycle (files : String → Option IdlFile) (includeFile : String → String → String)
    (p : String) : Prop :=
  ∃ q, Relation.ReflTransGen (Includes files includeFile) p q ∧
    Relation.TransGen (Includes files includeFile) q q

theorem ReachesCycle.child {p : String} (h : ReachesCycle files includeFile p) :
    ∃ q, Includes files includeFile p q ∧ ReachesCycle files includeFile q := by
  obtain ⟨q, hpq, hqq⟩ := h
  cases hpq.cases_head with
  | inl heq =>
    subst heq
    obtain ⟨r, hpr, hrp⟩ := Relation.TransGen.head'_iff.mp hqq
    exact ⟨r, hpr, p, hrp, hqq⟩
  | inr hstep =>
    obtain ⟨r, hpr, hrq⟩ := hstep
    exact ⟨r, hpr, q, hrq, hqq⟩

/-- The cache holds no file from which a cycle can be reached. -/
def Clean (files : String → Option IdlFile) (includeFile : String → String → String)
    (known : ProgramToScope) : Prop :=
  ∀ path, ReachesCycle files includeFile path → known.lookup path = none

/-- What a run from a path does to the cache, and that it returns only from a path
    without a cycle below it. -/
def KeepsClean (files : String → Option IdlFile) (includeFile : String → String → String)
    (one : String → Option Scope → ProgramToScope →
      Parsing (ProgramNode × Option Scope × ProgramToScope)) : Prop :=
  ∀ path parent known, Clean files includeFile known → ∀ r,
    (one path parent known).run = some (.ok r) →
      ¬ ReachesCycle files includeFile path ∧ Clean files includeFile r.2.2

theorem parseIncludes_clean {one : String → Option Scope → ProgramToScope →
      Parsing (ProgramNode × Option Scope × ProgramToScope)}
    (h : KeepsClean files includeFile one) {paths : List String} {scope : Scope}
    {known : ProgramToScope} (hclean : Clean files includeFile known)
    {r : List ProgramNode × Scope × ProgramToScope}
    (hr : (parseIncludes one paths scope known).run = some (.ok r)) :
    (∀ p ∈ paths, ¬ ReachesCycle files includeFile p) ∧ Clean files includeFile r.2.2 := by
  induction paths generalizing scope known r with
  | nil =>
    obtain rfl := Except.ok.inj (Option.some.inj hr)
    exact ⟨by simp, hclean⟩
  | cons p paths ih =>
    obtain ⟨a, hone, hr⟩ := run_bind_ok hr
    obtain ⟨hp, hknown⟩ := h p _ _ hclean a hone
    obtain ⟨b, hrest, hr⟩ := run_bind_ok hr
    obtain ⟨hps, hb⟩ := ih hknown hrest
    obtain rfl := Except.ok.inj (Option.some.inj hr)
    refine ⟨fun q hq => ?_, hb⟩
    rcases List.mem_cons.mp hq with rfl | hq
    · exact hp
    · exact hps q hq

theorem parse_clean (depth : ℕ) : KeepsClean files includeFile
    (parse files includeFile flags fuel true depth) := by
  induction depth with
  | zero =>
    intro path parent known _ r hr
    cases hr
  | succ depth ih =>
    intro path parent known hclean r hr
    unfold parse at hr
    simp only [↓reduceIte] at hr
    cases hfound : known.lookup path with
    | some found =>
      rw [hfound] at hr
      obtain ⟨a, -, hr⟩ := run_bind_ok hr
      obtain rfl := Except.ok.inj (Option.some.inj hr)
      refine ⟨fun hcycle => ?_, hclean⟩
      rw [hclean path hcycle] at hfound
      cases hfound
    | none =>
      rw [hfound] at hr
      obtain ⟨paths, hpaths, hr⟩ := run_bind_ok hr
      obtain rfl := scanIncludes_ok (Option.some.inj hpaths)
      obtain ⟨a, hloop, hr⟩ := run_bind_ok hr
      obtain ⟨hbelow, hknown⟩ := parseIncludes_clean ih hclean hloop
      obtain ⟨b, -, hr⟩ := run_bind_ok hr
      obtain rfl := Except.ok.inj (Option.some.inj hr)
      have hnot : ¬ ReachesCycle files includeFile path := by
        intro hcycle
        obtain ⟨q, hq, hqcycle⟩ := hcycle.child
        exact hbelow q hq hqcycle
      refine ⟨hnot, fun q hq => ?_⟩
      have hne : q ≠ path := by
        rintro rfl
        exact hnot hq
      change List.lookup q ((path, _) :: a.2.2) = none
      rw [SortedMap.lookup_cons_if, if_neg hne]
      exact hknown q hq

def Bare (files : String → Option IdlFile) (S : Finset String) : Prop :=
  ∀ p ∈ S, ∃ file, files p = some file ∧ file.definitions = []

theorem bare_openFile {S : Finset String} (hbare : Bare files S) {p : String} (hp : p ∈ S) :
    ∃ file, openFile files p = .ok file ∧ file.definitions = [] := by
  obtain ⟨file, hfile, hdefs⟩ := hbare p hp
  refine ⟨file, ?_, hdefs⟩
  unfold openFile
  rw [hfile]
  rfl

theorem bare_scanIncludes {S : Finset String} (hbare : Bare files S) {p : String} (hp : p ∈ S)
    (e : CompileError) : scanIncludes files includeFile flags p ≠ .error e := by
  obtain ⟨file, hopen, hdefs⟩ := bare_openFile hbare hp
  unfold scanIncludes
  rw [hopen]
  change (file.definitions.forM (scanDefinition flags) >>= _) ≠ _
  rw [hdefs]
  intro h
  cases h

theorem bare_parseDefinitions {S : Finset String} (hbare : Bare files S) {p : String}
    (hp : p ∈ S) (nodes : List ProgramNode) (known : Known) (parent : Option Scope)
    (e : CompileError) : parseDefinitions files flags fuel p nodes known parent ≠ .error e := by
  obtain ⟨file, hopen, hdefs⟩ := bare_openFile hbare hp
  unfold parseDefinitions
  rw [hopen]
  change (parseProgram flags _ fuel _ p file known.scope parent >>= _) ≠ _
  unfold parseProgram
  rw [hdefs]
  intro h
  cases h

theorem bare_parse {S : Finset String} (hbare : Bare files S)
    (closed : ∀ p ∈ S, ∀ q ∈ includesOf files includeFile p, q ∈ S) (useCache : Bool) (depth : ℕ)
    {path : String} (hmem : path ∈ S) (parent : Option Scope) (known : ProgramToScope)
    (e : CompileError) :
    (parse files includeFile flags fuel useCache depth path parent known).run ≠
      some (.error e) := by
  induction depth generalizing path parent known with
  | zero =>
    intro h
    cases h
  | succ depth ih =>
    intro h
    unfold parse at h
    split at h
    · rcases run_bind_error h with h | ⟨a, -, h⟩
      · exact bare_parseDefinitions hbare hmem _ _ _ e (Option.some.inj h)
      · cases h
    · rcases run_bind_error h with h | ⟨paths, hpaths, h⟩
      · exact bare_scanIncludes hbare hmem e (Option.some.inj h)
      obtain rfl := scanIncludes_ok (Option.some.inj hpaths)
      rcases run_bind_error h with h | ⟨a, -, h⟩
      · have hloop : ∀ (paths : List String), (∀ q ∈ paths, q ∈ S) → ∀ scope known,
            (parseIncludes (parse files includeFile flags fuel useCache depth) paths scope
              known).run ≠ some (.error e) := by
          intro paths hpaths
          induction paths with
          | nil =>
            intro scope known h
            cases h
          | cons q paths ihp =>
            intro scope known h
            rcases run_bind_error h with h | ⟨b, -, h⟩
            · exact ih (hpaths q (by simp)) _ _ h
            rcases run_bind_error h with h | ⟨c, -, h⟩
            · exact ihp (fun r hr => hpaths r (by simp [hr])) _ _ h
            · cases h
        exact hloop _ (closed path hmem) _ _ h
      rcases run_bind_error h with h | ⟨b, -, h⟩
      · exact bare_parseDefinitions hbare hmem _ _ _ e (Option.some.inj h)
      · cases h

end Diverges

section Main
variable (files : String → Option IdlFile) (includeFile : String → String → String)

/-- The same files and includes with other definitions in them. -/
def withDefinitions (defs : String → List Definition) : String → Option IdlFile :=
  fun p => (files p).map fun file => { file with definitions := defs p }

theorem includesOf_withDefinitions (defs : String → List Definition) :
    includesOf (withDefinitions files defs) includeFile = includesOf files includeFile := by
  funext p
  unfold includesOf withDefinitions
  cases files p <;> rfl

/-- `parse` with the cache, from an empty one, makes finitely many calls. -/
def ParseReturns (flags : Flags) (fuel : ℕ) (root : String) : Prop :=
  ∃ depth, Returns (parse files includeFile flags fuel true depth root none [])

theorem acyclic_withDefinitions (defs : String → List Definition) (root : String) :
    Acyclic (withDefinitions files defs) includeFile root ↔ Acyclic files includeFile root := by
  unfold Acyclic Includes
  rw [includesOf_withDefinitions]

/-- Over a finite set of files `parse` returns, whatever is defined in them, exactly
    when no cycle of includes is reachable. -/
theorem parse_returns_iff (flags : Flags) (fuel : ℕ) (S : Finset String) (root : String)
    (present : ∀ p ∈ S, (files p).isSome)
    (closed : ∀ p ∈ S, ∀ q ∈ includesOf files includeFile p, q ∈ S) (mem : root ∈ S) :
    (∀ defs, ParseReturns (withDefinitions files defs) includeFile flags fuel root) ↔
      Acyclic files includeFile root := by
  constructor
  · intro h p hreach hcycle
    obtain ⟨depth, hdepth⟩ := h fun _ => []
    have hsame := includesOf_withDefinitions files includeFile fun _ => []
    have hbare : Bare (withDefinitions files fun _ => []) S := by
      intro q hq
      obtain ⟨file, hfile⟩ := Option.isSome_iff_exists.mp (present q hq)
      exact ⟨{ file with definitions := [] }, by simp [withDefinitions, hfile], rfl⟩
    obtain ⟨r, hr⟩ := Option.isSome_iff_exists.mp hdepth
    cases r with
    | error e => exact bare_parse hbare (hsame ▸ closed) true depth mem none [] e hr
    | ok r =>
      have hclean : Clean (withDefinitions files fun _ => []) includeFile [] := fun _ _ => rfl
      refine (parse_clean depth root none [] hclean r hr).1 ⟨p, ?_⟩
      unfold Includes
      rw [hsame]
      exact ⟨hreach, hcycle⟩
  · intro h defs
    have hsame := includesOf_withDefinitions files includeFile defs
    refine ⟨_, returns_parse true (hsame ▸ closed) _ mem ?_ (Nat.lt_succ_self _) none []⟩
    exact (acyclic_withDefinitions files includeFile defs root).mpr h

theorem acyclic_of_rank {files : String → Option IdlFile}
    {includeFile : String → String → String} (rank : String → ℕ)
    (h : ∀ p, ∀ q ∈ includesOf files includeFile p, rank q < rank p) (root : String) :
    Acyclic files includeFile root := by
  have hlt : ∀ p q, Relation.TransGen (Includes files includeFile) p q → rank q < rank p := by
    intro p q hpq
    induction hpq with
    | single hstep => exact h _ _ hstep
    | tail _ hstep ih => exact (h _ _ hstep).trans ih
  intro p _ hcycle
  exact Nat.lt_irrefl _ (hlt p p hcycle)

/-- `r.thrift` includes `a.thrift` and `b.thrift`, and `a.thrift` includes `b.thrift`. -/
def diamond (p : String) : Option IdlFile :=
  if p = "r.thrift" then some { includes := ["a.thrift", "b.thrift"] }
  else if p = "a.thrift" then some { includes := ["b.thrift"] }
  else if p = "b.thrift" then some { definitions := [.senum "S"] }
  else none

theorem diamond_acyclic : Acyclic diamond (fun _ file => file) "r.thrift" := by
  apply acyclic_of_rank fun p => if p = "r.thrift" then 2 else if p = "a.thrift" then 1 else 0
  intro p q hq
  unfold includesOf diamond at hq
  by_cases hr : p = "r.thrift"
  · subst hr
    have hcases : q = "a.thrift" ∨ q = "b.thrift" := by simpa using (List.mem_filter.mp hq).1
    rcases hcases with rfl | rfl <;> decide
  · by_cases ha : p = "a.thrift"
    · subst ha
      have hcase : q = "b.thrift" := by simpa [hr] using (List.mem_filter.mp hq).1
      rw [hcase]
      decide
    · by_cases hb : p = "b.thrift" <;> simp [hr, ha, hb] at hq

theorem diamond_parse_returns :
    ParseReturns (withDefinitions diamond fun _ => [.senum "S"]) (fun _ file => file) {} 10
      "r.thrift" :=
  (parse_returns_iff diamond (fun _ file => file) {} 10 {"r.thrift", "a.thrift", "b.thrift"}
    "r.thrift" (by decide +kernel) (by decide +kernel) (by decide)).mpr diamond_acyclic _

/-- `a.thrift` includes itself. -/
def selfInclude (p : String) : Option IdlFile :=
  if p = "a.thrift" then some { includes := ["a.thrift"] } else none

theorem selfInclude_not_returns :
    ¬ ParseReturns selfInclude (fun _ file => file) {} 10 "a.thrift" := by
  rintro ⟨depth, h⟩
  have hstep : "a.thrift" ∈ includesOf selfInclude (fun _ file => file) "a.thrift" := by
    decide +kernel
  obtain ⟨r, hr⟩ := Option.isSome_iff_exists.mp h
  cases r with
  | error e =>
    have hbare : Bare selfInclude {"a.thrift"} := by
      intro p hp
      rw [Finset.mem_singleton] at hp
      exact ⟨{ includes := ["a.thrift"] }, by rw [hp]; rfl, rfl⟩
    exact bare_parse hbare (by decide +kernel) true depth (by decide) none [] e hr
  | ok r =>
    have hcycle : ReachesCycle selfInclude (fun _ file => file) "a.thrift" :=
      ⟨"a.thrift", .refl, .single hstep⟩
    exact (parse_clean depth "a.thrift" none [] (fun _ _ => rfl) r hr).1 hcycle

end Main

end Sparsam.IncludeTermination
