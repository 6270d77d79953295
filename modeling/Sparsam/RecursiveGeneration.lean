import Sparsam.ListPairing
import Sparsam.NameResolution
import Sparsam.PrintablePrograms
import Sparsam.ScopeCacheRefinement

set_option autoImplicit false

/-!
# Recursive generation

`generate` takes the programs of the tree in the order of `visits` and catches
what `generate_program` throws. But `get_type` ends the process at a name that
nothing defines, and `get_true_type` does not end at a cycle of typedefs; either
in one file keeps all the files after it from being written.
-/
namespace Sparsam.RecursiveGeneration
open ThriftTypes ThriftScope ThriftParser IncludeProcessing IncludeTermination IncludeCoverage
open ProgramTree NameResolution ScopeCacheRefinement GeneratedFiles RequirePaths PrintablePrograms

/-- The files that are done, what was written of each, and the errors that were caught. -/
structure GenerateState where
  generatedFiles : List String := []
  written : List (ProgramNode × Output) := []
  errors : List String := []

section Generate
variable (fuel : ℕ) (g : Generator) (d : Decorations)

/-- What `generate_program` writes for a program of the tree. -/
def programText (n : ProgramNode) : Compile Output :=
  generateProgramText (nodeScopes n) fuel g d (n.includes.map fun i => i.program.info) n.program

/-- The code of one program and its entry into `generated_files`. What is thrown is caught
    and printed; `exit` is not. -/
def generateCode (n : ProgramNode) : EStateM CompileError GenerateState Unit := do
  match programText fuel g d n with
  | .ok out => modify fun s => { s with written := s.written ++ [(n, out)] }
  | .error (.failure msg) =>
    modify fun s => { s with errors := s.errors ++ ["Error: " ++ msg ++ "\n"] }
  | .error e => throw e
  modify fun s => { s with generatedFiles := n.path :: s.generatedFiles }

mutual
def generate (genRecurse : Bool) : ProgramNode → EStateM CompileError GenerateState Unit
  | ⟨program, includes, scope, below⟩ => do
    if (← get).generatedFiles.contains program.info.path then pure ()
    else
      if genRecurse then generateIncludes genRecurse includes
      generateCode fuel g d ⟨program, includes, scope, below⟩

def generateIncludes (genRecurse : Bool) :
    List ProgramNode → EStateM CompileError GenerateState Unit
  | [] => pure ()
  | n :: ns => do
    generate genRecurse n
    generateIncludes genRecurse ns
end

end Generate

section Run
variable {fuel : ℕ} {g : Generator} {d : Decorations}

/-- What the code of one program leaves, unless it ends the run. -/
def afterCode (fuel : ℕ) (g : Generator) (d : Decorations) (n : ProgramNode)
    (s : GenerateState) : GenerateState where
  generatedFiles := n.path :: s.generatedFiles
  written := match programText fuel g d n with
    | .ok out => s.written ++ [(n, out)]
    | .error _ => s.written
  errors := match programText fuel g d n with
    | .error (.failure msg) => s.errors ++ ["Error: " ++ msg ++ "\n"]
    | _ => s.errors

theorem generateCode_ok {n : ProgramNode} {s s' : GenerateState}
    (h : generateCode fuel g d n s = .ok () s') : s' = afterCode fuel g d n s := by
  unfold generateCode at h
  unfold afterCode
  cases htext : programText fuel g d n with
  | ok out =>
    rw [htext] at h
    cases h
    rfl
  | error e =>
    rw [htext] at h
    cases e with
    | failure msg =>
      cases h
      rfl
    | exit msg => cases h
    | outOfFuel => cases h

theorem generateCode_of_succeeds {n : ProgramNode} (h : Succeeds (programText fuel g d n))
    (s : GenerateState) : generateCode fuel g d n s = .ok () (afterCode fuel g d n s) := by
  obtain ⟨out, hout⟩ := h
  unfold generateCode afterCode
  rw [hout]
  rfl

theorem bind_run {α : Type} {x : EStateM CompileError GenerateState Unit}
    {f : Unit → EStateM CompileError GenerateState α} (s : GenerateState) :
    (x >>= f) s = match x s with
      | .ok a s' => f a s'
      | .error e s' => .error e s' := by
  change EStateM.bind x f s = _
  unfold EStateM.bind
  cases x s <;> rfl

theorem run_ok {x : EStateM CompileError GenerateState Unit}
    {f : Unit → EStateM CompileError GenerateState Unit} {s s' : GenerateState}
    (h : (x >>= f) s = .ok () s') : ∃ t, x s = .ok () t ∧ f () t = .ok () s' := by
  rw [bind_run] at h
  cases hx : x s with
  | error e t =>
    rw [hx] at h
    cases h
  | ok a t =>
    rw [hx] at h
    exact ⟨t, rfl, h⟩

theorem forM_ok {ns : List ProgramNode} {s s' : GenerateState}
    (h : ns.forM (generateCode fuel g d) s = .ok () s') :
    s' = ns.foldl (fun s n => afterCode fuel g d n s) s := by
  induction ns generalizing s with
  | nil =>
    cases h
    rfl
  | cons n ns ih =>
    obtain ⟨t, ht, h⟩ := run_ok h
    obtain rfl := generateCode_ok ht
    exact ih h

theorem forM_of_succeeds {ns : List ProgramNode}
    (h : ∀ n ∈ ns, Succeeds (programText fuel g d n)) (s : GenerateState) :
    ns.forM (generateCode fuel g d) s =
      .ok () (ns.foldl (fun s n => afterCode fuel g d n s) s) := by
  induction ns generalizing s with
  | nil => rfl
  | cons n ns ih =>
    obtain ⟨hn, hns⟩ := List.forall_mem_cons.mp h
    change (generateCode fuel g d n >>= fun _ => ns.forM (generateCode fuel g d)) s = _
    rw [bind_run, generateCode_of_succeeds hn]
    exact ih hns _

theorem foldl_generatedFiles (ns : List ProgramNode) (s : GenerateState) :
    (ns.foldl (fun s n => afterCode fuel g d n s) s).generatedFiles =
      (ns.map ProgramNode.path).reverse ++ s.generatedFiles := by
  induction ns generalizing s with
  | nil => rfl
  | cons n ns ih =>
    rw [List.foldl_cons, ih, List.map_cons, List.reverse_cons, List.append_assoc]
    rfl

mutual
theorem visits_files : ∀ (n : ProgramNode) (files : List String),
    (visits true n files).2 = ((visits true n files).1.map ProgramNode.path).reverse ++ files
  | ⟨program, includes, scope, below⟩, files => by
    rw [visits_eq]
    split
    · rfl
    · rw [List.map_append, List.reverse_append, List.append_assoc]
      exact congrArg _ (visitsAll_files includes files)

theorem visitsAll_files : ∀ (ns : List ProgramNode) (files : List String),
    (visitsAll true ns files).2 =
      ((visitsAll true ns files).1.map ProgramNode.path).reverse ++ files
  | [], files => by
    unfold visitsAll
    rfl
  | n :: ns, files => by
    have hfirst := visits_files n files
    have hrest := visitsAll_files ns (visits true n files).2
    unfold visitsAll
    dsimp only
    rw [List.map_append, List.reverse_append, List.append_assoc, ← hfirst]
    exact hrest
end

theorem forM_append_run (ns ms : List ProgramNode) (s : GenerateState) :
    (ns ++ ms).forM (generateCode fuel g d) s = match ns.forM (generateCode fuel g d) s with
      | .ok _ t => ms.forM (generateCode fuel g d) t
      | .error e t => .error e t := by
  change forM (ns ++ ms) (generateCode fuel g d) s = _
  rw [List.forM_append]
  exact bind_run s

mutual
/-- The run is a run over the programs that are visited, one after the other. -/
theorem generate_run : ∀ (n : ProgramNode) (s : GenerateState),
    generate fuel g d true n s =
      (visits true n s.generatedFiles).1.forM (generateCode fuel g d) s
  | ⟨program, includes, scope, below⟩, s => by
    rw [visits_eq]
    change (if s.generatedFiles.contains program.info.path then
      (pure () : EStateM CompileError GenerateState Unit)
      else generateIncludes fuel g d true includes >>= fun _ =>
        generateCode fuel g d ⟨program, includes, scope, below⟩) s = _
    have hpath : (⟨program, includes, scope, below⟩ : ProgramNode).path = program.info.path := rfl
    rw [hpath]
    split
    · rfl
    · have hlast : [(⟨program, includes, scope, below⟩ : ProgramNode)].forM
          (generateCode fuel g d) = generateCode fuel g d ⟨program, includes, scope, below⟩ := by
        change generateCode fuel g d _ >>= (fun _ => pure ()) = _
        exact bind_pure_unit
      rw [bind_run, generateIncludes_run includes s, forM_append_run, hlast]
      rfl

theorem generateIncludes_run : ∀ (ns : List ProgramNode) (s : GenerateState),
    generateIncludes fuel g d true ns s =
      (visitsAll true ns s.generatedFiles).1.forM (generateCode fuel g d) s
  | [], s => by
    unfold generateIncludes visitsAll
    rfl
  | n :: ns, s => by
    unfold generateIncludes visitsAll
    dsimp only
    rw [bind_run, generate_run n s, forM_append_run]
    cases hfirst : (visits true n s.generatedFiles).1.forM (generateCode fuel g d) s with
    | error e t => rfl
    | ok a t =>
      have hfiles : t.generatedFiles = (visits true n s.generatedFiles).2 := by
        rw [forM_ok hfirst, foldl_generatedFiles, visits_files]
      dsimp only
      rw [generateIncludes_run ns t, hfiles]
end

theorem mem_written (ns : List ProgramNode) (s : GenerateState) {w : ProgramNode × Output} :
    w ∈ (ns.foldl (fun s n => afterCode fuel g d n s) s).written ↔
      w ∈ s.written ∨ w.1 ∈ ns ∧ programText fuel g d w.1 = .ok w.2 := by
  induction ns generalizing s with
  | nil => simp
  | cons n ns ih =>
    have hhead : w ∈ (afterCode fuel g d n s).written ↔
        w ∈ s.written ∨ w.1 = n ∧ programText fuel g d w.1 = .ok w.2 := by
      obtain ⟨m, out⟩ := w
      unfold afterCode
      cases htext : programText fuel g d n with
      | ok out' =>
        rw [List.mem_append, List.mem_singleton, Prod.mk.injEq]
        refine or_congr_right (and_congr_right fun hm => ?_)
        rw [hm, htext, Except.ok.injEq, eq_comm]
      | error e =>
        refine (or_iff_left ?_).symm
        rintro ⟨hm, hout⟩
        rw [hm, htext] at hout
        cases hout
    rw [List.foldl_cons, ih, hhead, List.mem_cons]
    tauto

theorem written_paths {ns : List ProgramNode} (h : ∀ n ∈ ns, Succeeds (programText fuel g d n))
    (s : GenerateState) :
    (ns.foldl (fun s n => afterCode fuel g d n s) s).written.map Prod.fst =
      s.written.map Prod.fst ++ ns := by
  induction ns generalizing s with
  | nil => simp
  | cons n ns ih =>
    obtain ⟨⟨out, hout⟩, hns⟩ := List.forall_mem_cons.mp h
    rw [List.foldl_cons, ih hns]
    unfold afterCode
    rw [hout]
    simp

end Run

section OneProgram
variable {files : String → Option IdlFile} {includeFile : String → String → String}
variable {flags : Flags} {fuel : ℕ}

theorem definitions_sameOwn {scopes : String → Scope} {includes : List Program}
    {ds : List Definition} {p q p' q' : Pass} (h : SameOwn p q)
    (hp : ds.foldlM (definition flags scopes fuel includes) p = .ok p')
    (hq : ds.foldlM (definition flags scopes fuel includes) q = .ok q') : SameOwn p' q' := by
  induction ds generalizing p q with
  | nil =>
    rw [← Except.ok.inj hp, ← Except.ok.inj hq]
    exact h
  | cons d ds ih =>
    obtain ⟨p₁, hp₁, hp⟩ := bind_ok hp
    obtain ⟨q₁, hq₁, hq⟩ := bind_ok hq
    exact ih (h.definition hp₁ hq₁) hp hq

theorem parseDefinitions_unique {path : String} {nodes : List ProgramNode} {known : Known}
    {parent parent' : Option Scope} {r r' : ProgramNode × Option Scope}
    (h : parseDefinitions files flags fuel path nodes known parent = .ok r)
    (h' : parseDefinitions files flags fuel path nodes known parent' = .ok r') : r.1 = r'.1 := by
  obtain ⟨file, hfile, h⟩ := bind_ok h
  obtain ⟨file', hfile', h'⟩ := bind_ok h'
  rw [hfile] at hfile'
  obtain rfl := Except.ok.inj hfile'
  obtain ⟨p, hp, h⟩ := bind_ok h
  obtain ⟨p', hp', h'⟩ := bind_ok h'
  have hstart : SameOwn
      { program := { info := { path, namespaces := mapOfEntries file.namespaces } }
        scope := known.scope, parentScope := parent }
      { program := { info := { path, namespaces := mapOfEntries file.namespaces } }
        scope := known.scope, parentScope := parent' } := ⟨rfl, rfl⟩
  obtain ⟨hprogram, hscope⟩ := definitions_sameOwn hstart hp hp'
  rw [← Except.ok.inj h, ← Except.ok.inj h', hprogram, hscope]

theorem fresh_unique {depth depth' : ℕ} {path : String} {parent parent' : Option Scope}
    {known known' : ProgramToScope} {r r' : ProgramNode × Option Scope × ProgramToScope}
    (h : (parse files includeFile flags fuel false depth path parent known).run = some (.ok r))
    (h' : (parse files includeFile flags fuel false depth' path parent' known').run =
      some (.ok r')) : r.1 = r'.1 := by
  cases depth with
  | zero => cases h
  | succ depth =>
    cases depth' with
    | zero => cases h'
    | succ depth' =>
      unfold parse at h h'
      simp only [Bool.false_eq_true, ↓reduceIte] at h h'
      obtain ⟨paths, hpaths, h⟩ := run_bind_ok h
      obtain ⟨paths', hpaths', h'⟩ := run_bind_ok h'
      rw [hpaths] at hpaths'
      obtain rfl := Except.ok.inj (Option.some.inj hpaths')
      obtain ⟨⟨nodes, scope, k⟩, hloop, h⟩ := run_bind_ok h
      obtain ⟨a', hloop', h'⟩ := run_bind_ok h'
      have hexpands : Expands files includeFile flags fuel depth path nodes scope :=
        ⟨_, _, paths, Option.some.inj hpaths, hloop⟩
      obtain ⟨k', hk'⟩ := expands_unique hexpands (Option.some.inj hpaths) hloop'
      obtain rfl := Except.ok.inj hk'
      obtain ⟨b, hb, h⟩ := run_bind_ok h
      obtain ⟨b', hb', h'⟩ := run_bind_ok h'
      rw [← Except.ok.inj (Option.some.inj h), ← Except.ok.inj (Option.some.inj h')]
      exact parseDefinitions_unique (Option.some.inj hb) (Option.some.inj hb')

theorem fresh_within (depth : ℕ) {path : String} {parent : Option Scope} {known : ProgramToScope}
    {r : ProgramNode × Option Scope × ProgramToScope}
    (h : (parse files includeFile flags fuel false depth path parent known).run = some (.ok r)) :
    ∀ m, Within r.1 m → ∃ depth' parent' known' r', (parse files includeFile flags fuel false
      depth' m.path parent' known').run = some (.ok r') ∧ r'.1 = m := by
  induction depth generalizing path parent known r with
  | zero => cases h
  | succ depth ih =>
    have hself := h
    unfold parse at h
    simp only [Bool.false_eq_true, ↓reduceIte] at h
    obtain ⟨paths, -, h⟩ := run_bind_ok h
    obtain ⟨a, hloop, h⟩ := run_bind_ok h
    obtain ⟨b, hb, h⟩ := run_bind_ok h
    obtain rfl := Except.ok.inj (Option.some.inj h)
    obtain ⟨hpath, hnodes⟩ := parseDefinitions_node (Option.some.inj hb)
    intro m hm
    rcases hm.cases_head with rfl | ⟨n, hn, hm⟩
    · rw [hpath]
      exact ⟨_, _, _, _, hself, rfl⟩
    · change n ∈ b.1.includes at hn
      rw [hnodes] at hn
      exact parseIncludes_within (fun _ _ _ _ => ih) hloop n hn m hm

theorem pruned_within {n m n' : ProgramNode} (h : Pruned n m) (hn : Within n n') :
    ∃ m', Within m m' ∧ Pruned n' m' := by
  induction hn using Relation.ReflTransGen.head_induction_on generalizing m with
  | refl => exact ⟨m, .refl, h⟩
  | head hstep _ ih =>
    cases h with
    | known => cases hstep
    | scanned _ includes below =>
      obtain ⟨c, hc, hpruned⟩ := ListPairing.mem_of_forall₂ below.flip hstep
      obtain ⟨m', hm', hpruned'⟩ := ih hpruned
      exact ⟨m', .head hc hm', hpruned'⟩

theorem fresh_of_cached {depth : ℕ} {root : String}
    {r : ProgramNode × Option Scope × ProgramToScope}
    (h : (parse files includeFile flags fuel true depth root none []).run = some (.ok r)) :
    ∃ depth' r', (parse files includeFile flags fuel false depth' root none []).run =
      some (.ok r') ∧ Pruned r.1 r'.1 := by
  have hkeys := mem_keys_of_parse h
  have hreturns : ∀ depth', height files includeFile (keys r.2.2).toFinset root < depth' →
      Returns (parse files includeFile flags fuel false depth' root none []) := by
    intro depth' hdepth
    refine returns_parse false (S := (keys r.2.2).toFinset) (fun p hp q hq => ?_) depth' ?_
      (acyclic_of_parse h) hdepth none []
    · rw [List.mem_toFinset, hkeys] at hp ⊢
      exact hp.tail hq
    · rw [List.mem_toFinset, hkeys]
  let depth' := max depth (height files includeFile (keys r.2.2).toFinset root + 1)
  obtain ⟨fresh, hfresh⟩ := Option.isSome_iff_exists.mp (hreturns depth' (by omega))
  have hcached := accepted_deeper (le_max_left depth _ : depth ≤ depth') h
  have hvalid : Valid files includeFile flags fuel [] := fun _ _ h => nomatch h
  obtain ⟨r', hr', hmatch⟩ := follows_cached depth' root none [] hvalid fresh hfresh
  rw [hcached] at hr'
  obtain rfl := Option.some.inj hr'
  cases hmatch with
  | @ok a _ hagree => exact ⟨depth', a, hfresh, hagree.1⟩

theorem program_unique {depth : ℕ} {root : String}
    {r : ProgramNode × Option Scope × ProgramToScope}
    (h : (parse files includeFile flags fuel true depth root none []).run = some (.ok r))
    {m m' : ProgramNode} (hm : Within r.1 m) (hm' : Within r.1 m') (hpath : m.path = m'.path) :
    m.program = m'.program ∧ nodeScopes m = nodeScopes m' := by
  obtain ⟨_, fresh, hfresh, hpruned⟩ := fresh_of_cached h
  obtain ⟨n, hn, hmn⟩ := pruned_within hpruned hm
  obtain ⟨n', hn', hmn'⟩ := pruned_within hpruned hm'
  obtain ⟨_, _, _, f, hf, rfl⟩ := fresh_within _ hfresh n hn
  obtain ⟨_, _, _, f', hf', rfl⟩ := fresh_within _ hfresh n' hn'
  obtain ⟨hprogram, hscope, hbelow⟩ := hmn.parts
  obtain ⟨hprogram', hscope', hbelow'⟩ := hmn'.parts
  have hsame : f.1.path = f'.1.path := by
    unfold ProgramNode.path at hpath ⊢
    rw [← hprogram, ← hprogram', hpath]
  rw [hsame] at hf
  have heq := fresh_unique hf hf'
  have hscopes : nodeScopes m = nodeScopes m' := by
    funext p
    unfold nodeScopes
    rw [hpath, hscope, hscope', hbelow, hbelow', heq]
  exact ⟨by rw [hprogram, hprogram', heq], hscopes⟩

end OneProgram

section Main
variable {files : String → Option IdlFile} {includeFile : String → String → String}
variable {flags : Flags} {fuel depth : ℕ} {root : String}
variable {r : ProgramNode × Option Scope × ProgramToScope}

/-- Every include of the files below the root is found. -/
def Resolves (files : String → Option IdlFile) (includeFile : String → String → String)
    (root : String) : Prop :=
  ∀ p, Relation.ReflTransGen (Includes files includeFile) root p → ∀ file, files p = some file →
    ∀ inc ∈ file.includes, includeFile (directoryName p) inc ≠ ""

/-- Each file below the root is written once, from a program with all its includes in
    order, and with the `require` lines of all of them. -/
structure Covers (files : String → Option IdlFile) (includeFile : String → String → String)
    (g : Generator) (root : String) (written : List (ProgramNode × Output)) : Prop where
  once : (written.map fun w => w.1.path).Nodup
  all : ∀ p, p ∈ written.map (fun w => w.1.path) ↔
    Relation.ReflTransGen (Includes files includeFile) root p
  includes : ∀ w ∈ written, ∃ file, files w.1.path = some file ∧
    w.1.includes.map ProgramNode.path = directives includeFile w.1.path file
  requires : ∀ w ∈ written,
    typesHeader g (w.1.includes.map fun i => i.program.info) <+: w.2.types

theorem header_prefix {n : ProgramNode} {g : Generator} {d : Decorations} {out : Output}
    (h : programText fuel g d n = .ok out) :
    typesHeader g (n.includes.map fun i => i.program.info) <+: out.types := by
  obtain ⟨objects, -, h⟩ := bind_ok h
  obtain ⟨consts, -, h⟩ := bind_ok h
  rw [← Except.ok.inj h]
  exact List.prefix_append _ _

theorem visits_includes
    (accepted : (parse files includeFile flags fuel true depth root none []).run = some (.ok r))
    (resolves : Resolves files includeFile root)
    {n : ProgramNode} (hn : n ∈ (visits true r.1 []).1) : ∃ file, files n.path = some file ∧
      n.includes.map ProgramNode.path = directives includeFile n.path file := by
  have hacyclic := acyclic_of_parse accepted
  have hstep := visits_inStep depth hacyclic accepted (g := []) (by simp [keys])
  have hreach := (mem_visits hacyclic accepted n.path).mp (List.mem_map_of_mem hn)
  obtain ⟨file, -, -, -, -, -, hfile, -⟩ := (visits_made accepted n hn).pass
  refine ⟨file, hfile, ?_⟩
  rw [hstep.complete n hn, includesOf_eq_directives hfile (resolves n.path hreach file hfile)]

theorem covers_of_printed
    (accepted : (parse files includeFile flags fuel true depth root none []).run = some (.ok r))
    (resolves : Resolves files includeFile root)
    {bound : ℕ} {g : Generator} {d : Decorations}
    (h : ∀ n ∈ (visits true r.1 []).1, Succeeds (programText bound g d n)) :
    Covers files includeFile g root
      ((visits true r.1 []).1.foldl (fun s n => afterCode bound g d n s) {}).written := by
  have hpaths : ((visits true r.1 []).1.foldl (fun s n => afterCode bound g d n s)
      {}).written.map (fun w => w.1.path) = (visits true r.1 []).1.map ProgramNode.path := by
    have hprograms := written_paths h {}
    rw [List.map_nil, List.nil_append] at hprograms
    rw [← congrArg (List.map ProgramNode.path) hprograms, List.map_map]
    rfl
  have hmem : ∀ w ∈ ((visits true r.1 []).1.foldl (fun s n => afterCode bound g d n s)
      {}).written, w.1 ∈ (visits true r.1 []).1 ∧ programText bound g d w.1 = .ok w.2 := by
    intro w hw
    rcases (mem_written _ _).mp hw with hw | hw
    · cases hw
    · exact hw
  refine ⟨?_, fun p => ?_, fun w hw => ?_, fun w hw => ?_⟩
  · rw [hpaths]
    exact visits_nodup accepted
  · rw [hpaths]
    exact mem_visits (acyclic_of_parse accepted) accepted p
  · exact visits_includes accepted resolves (hmem w hw).1
  · exact header_prefix (hmem w hw).2

theorem forall_within_iff
    (accepted : (parse files includeFile flags fuel true depth root none []).run = some (.ok r))
    {P : (String → Scope) → Program → Prop} :
    (∀ m, Within r.1 m → P (nodeScopes m) m.program) ↔
      ∀ n ∈ (visits true r.1 []).1, P (nodeScopes n) n.program := by
  constructor
  · exact fun h n hn => h n (visits_within r.1 [] n hn)
  · intro h m hm
    obtain ⟨hroot, htree, -⟩ := parse_tree accepted
    have hreach := (htree m hm).2
    rw [hroot, ← mem_visits (acyclic_of_parse accepted) accepted] at hreach
    obtain ⟨n, hn, hpath⟩ := List.mem_map.mp hreach
    obtain ⟨hprogram, hscopes⟩ :=
      program_unique accepted hm (visits_within r.1 [] n hn) hpath.symm
    rw [hprogram, hscopes]
    exact h n hn

theorem printed_of_covers
    (accepted : (parse files includeFile flags fuel true depth root none []).run = some (.ok r))
    {bound : ℕ} {g : Generator} {d : Decorations} {s : GenerateState}
    (hrun : generate bound g d true r.1 {} = .ok () s)
    (hcovers : Covers files includeFile g root s.written) :
    ∀ n ∈ (visits true r.1 []).1, Succeeds (programText bound g d n) := by
  intro n hn
  have hreach := (mem_visits (acyclic_of_parse accepted) accepted n.path).mp
    (List.mem_map_of_mem hn)
  obtain ⟨w, hw, hpath⟩ := List.mem_map.mp ((hcovers.all n.path).mpr hreach)
  rw [generate_run] at hrun
  rw [forM_ok hrun, mem_written] at hw
  rcases hw with hw | ⟨hvisited, hout⟩
  · cases hw
  · rw [← List.inj_on_of_nodup_map (visits_nodup accepted) hvisited hn hpath]
    exact ⟨_, hout⟩

/-- `generate` with `-r`, after `parse` has accepted files whose includes all resolve,
    writes each of them once and with all its includes exactly when every program can be
    printed. -/
theorem covers_iff_printable (files : String → Option IdlFile)
    (includeFile : String → String → String) (flags : Flags) (fuel depth : ℕ) (root : String)
    (r : ProgramNode × Option Scope × ProgramToScope)
    (accepted : (parse files includeFile flags fuel true depth root none []).run = some (.ok r))
    (resolves : Resolves files includeFile root)
    (g : Generator) (d : Decorations) :
    (∃ bound, ∀ fuel', bound ≤ fuel' → ∃ s, generate fuel' g d true r.1 {} = .ok () s ∧
        Covers files includeFile g root s.written) ↔
      ∀ m, Within r.1 m → PrintableProgram (nodeScopes m) m.program := by
  rw [forall_within_iff accepted]
  constructor
  · rintro ⟨bound, h⟩ n hn
    obtain ⟨s, hrun, hcovers⟩ := h bound le_rfl
    exact printable_of_generated (printed_of_covers accepted hrun hcovers n hn)
  · intro h
    have hprinted := eventually_forall_mem (P := fun n fuel' => Succeeds (programText fuel' g d n))
      fun n hn => (eventually_generated (h n hn)).mono fun fuel' hn => hn g d _
    obtain ⟨bound, hbound⟩ := Filter.eventually_atTop.mp hprinted
    refine ⟨bound, fun fuel' hfuel =>
      ⟨_, ?_, covers_of_printed accepted resolves (hbound fuel' hfuel)⟩⟩
    rw [generate_run]
    exact forM_of_succeeds (hbound fuel' hfuel) _

/-- The diamond, with `struct Point { 1: i32 x }` in the file that two files include. -/
def points : String → Option IdlFile :=
  withDefinitions diamond fun p =>
    if p = "b.thrift" then
      [.struct false "Point" [
        { identifier := some 1, type := .baseType .TYPE_I32 false, name := "x" }]]
    else []

theorem points_resolve : Resolves points (fun _ file => file) "r.thrift" := by
  intro p _ file hfile
  obtain ⟨f, hf, rfl⟩ := Option.map_eq_some_iff.mp hfile
  unfold diamond at hf
  split_ifs at hf
  all_goals
    obtain rfl := Option.some.inj hf
    dsimp only
    decide

def rubyGenerator : Generator := ⟨false, "./", false⟩

def visitsMap {α : Type} (f : ProgramNode → α)
    (x : Parsing (ProgramNode × Option Scope × ProgramToScope)) :
    Option (Except CompileError (List α)) :=
  x.run.map fun r => r.map fun r => (visits true r.1 []).1.map f

theorem visitsMap_eq {α : Type} {f : ProgramNode → α}
    {x : Parsing (ProgramNode × Option Scope × ProgramToScope)} {results : List α}
    (h : visitsMap f x = some (.ok results)) :
    ∃ r, x.run = some (.ok r) ∧ (visits true r.1 []).1.map f = results := by
  obtain ⟨e, he, h⟩ := Option.map_eq_some_iff.mp h
  cases e with
  | error e => cases h
  | ok r => exact ⟨r, he, Except.ok.inj h⟩

theorem points_covered : ∃ r,
    (parse points (fun _ file => file) {} 10 true 3 "r.thrift" none []).run = some (.ok r) ∧
      ∃ bound, ∀ fuel', bound ≤ fuel' → ∃ s,
        generate fuel' rubyGenerator {} true r.1 {} = .ok () s ∧
          Covers points (fun _ file => file) rubyGenerator "r.thrift" s.written := by
  have hrun : visitsMap (fun n => (programText 5 rubyGenerator {} n).isOk)
      (parse points (fun _ file => file) {} 10 true 3 "r.thrift" none []) =
        some (.ok [true, true, true]) := by
    decide +kernel
  obtain ⟨r, hr, hprinted⟩ := visitsMap_eq hrun
  refine ⟨r, hr, (covers_iff_printable _ _ _ _ _ _ r hr points_resolve rubyGenerator {}).mpr
    ((forall_within_iff hr).mpr fun n hn => ?_)⟩
  have hok : (programText 5 rubyGenerator {} n).isOk = true := by
    have hmem := List.mem_map_of_mem (f := fun n => (programText 5 rubyGenerator {} n).isOk) hn
    rw [hprinted] at hmem
    simpa using hmem
  cases htext : programText 5 rubyGenerator {} n with
  | error e =>
    rw [htext] at hok
    cases hok
  | ok out => exact printable_of_generated ⟨out, htext⟩

/-- `struct S { 1: Undefined x }` in a file that `r.thrift` includes. -/
def undefinedType (p : String) : Option IdlFile :=
  if p = "r.thrift" then some { includes := ["a.thrift"] }
  else if p = "a.thrift" then
    some {
      definitions := [.struct false "S" [
        { identifier := some 1, type := .identifier "Undefined", name := "x" }]] }
  else none

def undefinedNames (n : ProgramNode) : List String :=
  n.program.objects.flatMap fun s => s.members.filterMap fun f =>
    match f.type with
    | .forwardTypedef p name =>
      if ((nodeScopes n p.path).getType name).isSome then none else some name
    | _ => none

theorem not_expands_undefined {scopes : String → Scope} {p : TProgram} {name : String}
    (h : (scopes p.path).getType name = none) (u : ThriftType) :
    ¬ ClassReferences.Expands scopes (.forwardTypedef p name) u := by
  rintro ⟨fuel, hu⟩
  cases fuel with
  | zero => cases hu
  | succ fuel =>
    simp only [getTrueType, getType, h] at hu
    cases hu

theorem not_printable_undefined {n : ProgramNode} (name : String) (h : name ∈ undefinedNames n) :
    ¬ PrintableProgram (nodeScopes n) n.program := by
  intro hprintable
  obtain ⟨s, hs, h⟩ := List.mem_flatMap.mp h
  obtain ⟨f, hf, h⟩ := List.mem_filterMap.mp h
  have hdescribable := (hprintable.members s hs f hf).1
  cases htype : f.type with
  | forwardTypedef p name' =>
    rw [htype] at h hdescribable
    dsimp only at h
    split at h
    · cases h
    · rename_i hnone
      have hnot := not_expands_undefined (Option.not_isSome_iff_eq_none.mp hnone)
      cases hdescribable with
      | base h => exact hnot _ h
      | enum h => exact hnot _ h
      | struct h => exact hnot _ h
      | map h => exact hnot _ h
      | list h => exact hnot _ h
      | set h => exact hnot _ h
  | _ =>
    rw [htype] at h
    cases h

theorem undefinedType_resolve :
    Resolves undefinedType (fun _ file => file) "r.thrift" := by
  intro p _ file hfile
  unfold undefinedType at hfile
  split_ifs at hfile
  all_goals
    obtain rfl := Option.some.inj hfile
    dsimp only
    decide

/-- The files are accepted and all includes resolve, and no run of `generate` covers them. -/
theorem undefinedType_not_covered : ∃ r,
    (parse undefinedType (fun _ file => file) {} 10 true 2 "r.thrift" none []).run =
        some (.ok r) ∧
      Resolves undefinedType (fun _ file => file) "r.thrift" ∧
      ∀ fuel' g d s, generate fuel' g d true r.1 {} = .ok () s →
        ¬ Covers undefinedType (fun _ file => file) g "r.thrift" s.written := by
  have hrun : visitsMap undefinedNames
      (parse undefinedType (fun _ file => file) {} 10 true 2 "r.thrift" none []) =
        some (.ok [["Undefined"], []]) := by
    decide +kernel
  obtain ⟨r, hr, hnames⟩ := visitsMap_eq hrun
  refine ⟨r, hr, undefinedType_resolve, fun fuel' g d s hs hcovers => ?_⟩
  obtain ⟨n, ns, hvisits, hn, -⟩ := List.map_eq_cons_iff.mp hnames
  have hmem : n ∈ (visits true r.1 []).1 := by simp [hvisits]
  have hprinted := printable_of_generated (printed_of_covers hr hs hcovers n hmem)
  exact not_printable_undefined "Undefined" (by simp [hn]) hprinted

end Main

end Sparsam.RecursiveGeneration
