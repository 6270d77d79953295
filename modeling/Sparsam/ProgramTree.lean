import Sparsam.IncludeCoverage

set_option autoImplicit false

/-!
# The programs of an accepted tree

Every program under the root of a tree that `parse` returns is what one pass
over the definitions of its file left, so what that pass keeps true holds of it.
-/
namespace Sparsam.ProgramTree
open ThriftTypes ThriftScope ThriftParser IncludeProcessing IncludeTermination IncludeCoverage

/-- The programs of the tree under `n`, itself included. -/
def Within (n m : ProgramNode) : Prop :=
  Relation.ReflTransGen (fun a b : ProgramNode => b ∈ a.includes) n m

theorem accepted_of_isOk {α : Type} {x : Parsing α} (h : x.run.map Except.isOk = some true) :
    ∃ r, x.run = some (.ok r) := by
  cases hx : x.run with
  | none => simp [hx] at h
  | some r =>
    cases r with
    | error e => simp [hx, Except.isOk, Except.toBool] at h
    | ok r => exact ⟨r, rfl⟩

section
variable {files : String → Option IdlFile} {includeFile : String → String → String}
variable {flags : Flags} {fuel : ℕ}

/-- The program is the result of a pass over its file. -/
def Made (files : String → Option IdlFile) (flags : Flags) (fuel : ℕ) (m : ProgramNode) : Prop :=
  ∃ nodes known parent r, parseDefinitions files flags fuel m.path nodes known parent = .ok r ∧
    r.1 = m

theorem made_parseDefinitions {p : String} {nodes : List ProgramNode} {k : Known}
    {parent : Option Scope} {r : ProgramNode × Option Scope}
    (h : parseDefinitions files flags fuel p nodes k parent = .ok r) :
    Made files flags fuel r.1 :=
  ⟨nodes, k, parent, r, by rw [(parseDefinitions_node h).1, h], rfl⟩

theorem Made.pass {m : ProgramNode} (h : Made files flags fuel m) :
    ∃ file scopes includes scope parent pass, files m.path = some file ∧
      parseProgram flags scopes fuel includes m.path file scope parent = .ok pass ∧
      m.program = pass.program ∧ m.scope = pass.scope := by
  obtain ⟨nodes, k, parent, r, hr, rfl⟩ := h
  obtain ⟨file, hfile, hr⟩ := bind_ok hr
  obtain ⟨pass, hpass, hr⟩ := bind_ok hr
  refine ⟨file, _, _, _, _, pass, ?_, hpass, ?_⟩
  · unfold openFile at hfile
    cases hp : files r.1.path with
    | none =>
      rw [hp] at hfile
      cases hfile
    | some file' =>
      rw [hp] at hfile
      rw [Except.ok.inj hfile]
  · rw [← Except.ok.inj hr]
    exact ⟨rfl, rfl⟩

theorem parseIncludes_within {one : String → Option Scope → ProgramToScope →
      Parsing (ProgramNode × Option Scope × ProgramToScope)} {Φ : ProgramNode → Prop}
    (hone : ∀ path parent known r, (one path parent known).run = some (.ok r) →
      ∀ m, Within r.1 m → Φ m)
    {paths : List String} {scope : Scope} {known : ProgramToScope}
    {r : List ProgramNode × Scope × ProgramToScope}
    (h : (parseIncludes one paths scope known).run = some (.ok r)) :
    ∀ n ∈ r.1, ∀ m, Within n m → Φ m := by
  induction paths generalizing scope known r with
  | nil =>
    obtain rfl := Except.ok.inj (Option.some.inj h)
    simp
  | cons p paths ih =>
    obtain ⟨a, ha, h⟩ := run_bind_ok h
    obtain ⟨b, hb, h⟩ := run_bind_ok h
    obtain rfl := Except.ok.inj (Option.some.inj h)
    intro n hn
    rcases List.mem_cons.mp hn with rfl | hn
    · exact hone _ _ _ _ ha
    · exact ih hb n hn

theorem parse_made (depth : ℕ) {path : String} {parent : Option Scope} {known : ProgramToScope}
    {r : ProgramNode × Option Scope × ProgramToScope}
    (h : (parse files includeFile flags fuel true depth path parent known).run = some (.ok r)) :
    ∀ m, Within r.1 m → Made files flags fuel m := by
  induction depth generalizing path parent known r with
  | zero => cases h
  | succ depth ih =>
    unfold parse at h
    simp only [↓reduceIte] at h
    cases hfound : known.lookup path with
    | some found =>
      rw [hfound] at h
      obtain ⟨a, ha, h⟩ := run_bind_ok h
      obtain rfl := Except.ok.inj (Option.some.inj h)
      intro m hm
      rcases hm.cases_head with rfl | ⟨n, hn, -⟩
      · exact made_parseDefinitions (Option.some.inj ha)
      · change n ∈ a.1.includes at hn
        rw [(parseDefinitions_node (Option.some.inj ha)).2] at hn
        cases hn
    | none =>
      rw [hfound] at h
      obtain ⟨paths, -, h⟩ := run_bind_ok h
      obtain ⟨a, hloop, h⟩ := run_bind_ok h
      obtain ⟨b, hb, h⟩ := run_bind_ok h
      obtain rfl := Except.ok.inj (Option.some.inj h)
      intro m hm
      rcases hm.cases_head with rfl | ⟨n, hn, hm⟩
      · exact made_parseDefinitions (Option.some.inj hb)
      · change n ∈ b.1.includes at hn
        rw [(parseDefinitions_node (Option.some.inj hb)).2] at hn
        exact parseIncludes_within (fun _ _ _ _ => ih) hloop n hn m hm

end

section Visited

mutual
theorem visits_within : ∀ (n : ProgramNode) (g : List String),
    ∀ m ∈ (visits true n g).1, Within n m
  | ⟨program, includes, scope, below⟩, g => by
    intro m hm
    rw [visits_eq] at hm
    split at hm
    · cases hm
    · rcases List.mem_append.mp hm with hm | hm
      · obtain ⟨n, hn, hm⟩ := visitsAll_within includes g m hm
        exact .head hn hm
      · rw [List.mem_singleton.mp hm]
        exact .refl

theorem visitsAll_within : ∀ (ns : List ProgramNode) (g : List String),
    ∀ m ∈ (visitsAll true ns g).1, ∃ n ∈ ns, Within n m
  | [], g => by
    intro m hm
    unfold visitsAll at hm
    cases hm
  | n :: ns, g => by
    intro m hm
    unfold visitsAll at hm
    rcases List.mem_append.mp hm with hm | hm
    · exact ⟨n, by simp, visits_within n g m hm⟩
    · obtain ⟨k, hk, hm⟩ := visitsAll_within ns _ m hm
      exact ⟨k, by simp [hk], hm⟩
end

variable {files : String → Option IdlFile} {includeFile : String → String → String}
variable {flags : Flags} {fuel depth : ℕ} {root : String}
variable {r : ProgramNode × Option Scope × ProgramToScope}

theorem acyclic_of_parse
    (h : (parse files includeFile flags fuel true depth root none []).run = some (.ok r)) :
    Acyclic files includeFile root := by
  have hclean : Clean files includeFile [] := fun _ _ => rfl
  exact fun p hp hcycle => (parse_clean depth root none [] hclean r h).1 ⟨p, hp, hcycle⟩

theorem visits_nodup
    (h : (parse files includeFile flags fuel true depth root none []).run = some (.ok r)) :
    ((visits true r.1 []).1.map ProgramNode.path).Nodup :=
  (visits_inStep depth (acyclic_of_parse h) h (g := []) (by simp [keys])).nodup

theorem visits_made
    (h : (parse files includeFile flags fuel true depth root none []).run = some (.ok r)) :
    ∀ n ∈ (visits true r.1 []).1, Made files flags fuel n :=
  fun n hn => parse_made depth h n (visits_within r.1 [] n hn)

end Visited

end Sparsam.ProgramTree
