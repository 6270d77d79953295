import Mathlib.Data.List.Forall2
import Sparsam.IncludeTermination

set_option autoImplicit false

/-!
# The scope cache does not change name resolution

Without the cache the result for a file is a function of its path alone. An
entry of the cache is what the recursion below the file left, and it is used
only after the file itself has been accepted once; the second pass over its
definitions then differs from the first only in the scope of the parent.
-/
namespace Sparsam.ScopeCacheRefinement
open ThriftTypes ThriftScope ThriftParser IncludeProcessing IncludeTermination

section SecondPass
variable {flags : Flags} {scopes : String → Scope} {fuel : ℕ} {includes : List Program}

/-- Two passes over one program that differ in the parent's scope at most. -/
def SameOwn (p q : Pass) : Prop := p.program = q.program ∧ p.scope = q.scope

theorem isUniqueTypename_nil {p : Program} {name : String}
    (h : isUniqueTypename p includes name = true) : isUniqueTypename p [] name = true := by
  unfold isUniqueTypename at h ⊢
  rw [Bool.and_eq_true] at h
  rw [h.1]
  rfl

theorem SameOwn.addConstant {p q p' q' : Pass} (h : SameOwn p q) {name : String} {c : TConst}
    (hp : ThriftParser.addConstant p name c = .ok p')
    (hq : ThriftParser.addConstant q name c = .ok q') : SameOwn p' q' := by
  have hscope := addConstant_scope hp
  rw [h.2, addConstant_scope hq] at hscope
  refine ⟨?_, (Except.ok.inj hscope).symm⟩
  rw [addConstant_program hp, addConstant_program hq, h.1]

theorem SameOwn.addEnumConstants {p q p' q' : Pass} (h : SameOwn p q) {tenum : TEnum}
    {vs : List TEnumValue} (hp : ThriftParser.addEnumConstants tenum p vs = .ok p')
    (hq : ThriftParser.addEnumConstants tenum q vs = .ok q') : SameOwn p' q' := by
  induction vs generalizing p q with
  | nil =>
    rw [← Except.ok.inj hp, ← Except.ok.inj hq]
    exact h
  | cons v vs ih =>
    obtain ⟨p₁, hp₁, hp⟩ := bind_ok hp
    obtain ⟨q₁, hq₁, hq⟩ := bind_ok hq
    exact ih (h.addConstant hp₁ hq₁) hp hq

theorem SameOwn.addType {p q p' q' : Pass} (h : SameOwn p q) {name : String} {type : ThriftType}
    (hp : ThriftParser.addType includes p name type = .ok p')
    (hq : ThriftParser.addType includes q name type = .ok q') : SameOwn p' q' := by
  obtain ⟨-, hp1, hp2⟩ := addType_ok hp
  obtain ⟨-, hq1, hq2⟩ := addType_ok hq
  rw [SameOwn, hp1, hp2, hq1, hq2, h.1, h.2]
  exact ⟨rfl, rfl⟩

theorem SameOwn.enterScopes {p q p' q' : Pass} (h : SameOwn p q) {e : Entry}
    (hp : ThriftParser.enterScopes includes p e = .ok p')
    (hq : ThriftParser.enterScopes includes q e = .ok q') : SameOwn p' q' := by
  cases e with
  | const c => exact h.addConstant hp hq
  | typedef name type =>
    unfold ThriftParser.enterScopes at hp hq
    rw [h.1] at hp
    exact h.addType hp hq
  | enum tenum =>
    obtain ⟨p₁, hp₁, hp⟩ := bind_ok hp
    obtain ⟨q₁, hq₁, hq⟩ := bind_ok hq
    exact (h.addEnumConstants hp₁ hq₁).addType hp hq
  | object s => exact h.addType hp hq
  | service s =>
    obtain ⟨-, hp1, hp2⟩ := addService_ok hp
    obtain ⟨-, hq1, hq2⟩ := addService_ok hq
    rw [SameOwn, hp1, hp2, hq1, hq2, h.1, h.2]
    exact ⟨rfl, rfl⟩

theorem addType_nil {p q p' : Pass} (h : SameOwn p q) {name : String} {type : ThriftType}
    (hp : ThriftParser.addType includes p name type = .ok p') :
    ThriftParser.addType [] q name type = ThriftParser.addType includes q name type := by
  obtain ⟨hunique, -, -⟩ := addType_ok hp
  rw [h.1] at hunique
  unfold ThriftParser.addType
  rw [if_pos hunique, if_pos (isUniqueTypename_nil hunique)]

theorem enterScopes_nil {p q p' : Pass} (h : SameOwn p q) {e : Entry}
    (hp : ThriftParser.enterScopes includes p e = .ok p') :
    ThriftParser.enterScopes [] q e = ThriftParser.enterScopes includes q e := by
  cases e with
  | const c => rfl
  | typedef name type =>
    change ThriftParser.addType includes p name (.typedef p.program.info name type) = _ at hp
    rw [h.1] at hp
    exact addType_nil h hp
  | enum tenum =>
    obtain ⟨p₁, hp₁, hp⟩ := bind_ok hp
    simp only [ThriftParser.enterScopes]
    cases hq : ThriftParser.addEnumConstants tenum q tenum.constants with
    | error e => rfl
    | ok q₁ => exact addType_nil (h.addEnumConstants hp₁ hq) hp
  | object s => exact addType_nil h hp
  | service s =>
    obtain ⟨hunique, -, -⟩ := addService_ok hp
    rw [h.1] at hunique
    simp only [ThriftParser.enterScopes, addService]
    rw [if_pos hunique, if_pos (isUniqueTypename_nil hunique)]

theorem SameOwn.definition {p q p' q' : Pass} (h : SameOwn p q) {d : Definition}
    (hp : ThriftParser.definition flags scopes fuel includes p d = .ok p')
    (hq : ThriftParser.definition flags scopes fuel includes q d = .ok q') : SameOwn p' q' := by
  obtain ⟨e, he, hp⟩ := bind_ok hp
  obtain ⟨e', he', hq⟩ := bind_ok hq
  have hvisible : p.visibleScopes scopes = q.visibleScopes scopes := by
    funext path
    unfold Pass.visibleScopes
    rw [h.1, h.2]
  rw [hvisible, h.1, h.2, he'] at he
  obtain rfl := Except.ok.inj he
  obtain ⟨p₁, hp₁, hp⟩ := bind_ok hp
  obtain ⟨q₁, hq₁, hq⟩ := bind_ok hq
  rw [← Except.ok.inj hp, ← Except.ok.inj hq]
  have hsame := h.enterScopes hp₁ hq₁
  exact ⟨by rw [hsame.1], hsame.2⟩

theorem definition_nil {p q p' : Pass} (h : SameOwn p q) {d : Definition}
    (hp : ThriftParser.definition flags scopes fuel includes p d = .ok p') :
    ThriftParser.definition flags scopes fuel [] q d =
      ThriftParser.definition flags scopes fuel includes q d := by
  obtain ⟨e, he, hp⟩ := bind_ok hp
  obtain ⟨p₁, hp₁, hp⟩ := bind_ok hp
  have hvisible : q.visibleScopes scopes = p.visibleScopes scopes := by
    funext path
    unfold Pass.visibleScopes
    rw [h.1, h.2]
  unfold ThriftParser.definition
  rw [hvisible, ← h.1, ← h.2, he]
  change ThriftParser.enter [] q e = ThriftParser.enter includes q e
  unfold ThriftParser.enter
  rw [enterScopes_nil h hp₁]

theorem definitions_nil {ds : List Definition} {p q p' : Pass} (h : SameOwn p q)
    (hp : ds.foldlM (ThriftParser.definition flags scopes fuel includes) p = .ok p') :
    ds.foldlM (ThriftParser.definition flags scopes fuel []) q =
      ds.foldlM (ThriftParser.definition flags scopes fuel includes) q := by
  induction ds generalizing p q with
  | nil => rfl
  | cons d ds ih =>
    obtain ⟨p₁, hp₁, hp⟩ := bind_ok hp
    rw [List.foldlM_cons, List.foldlM_cons, definition_nil h hp₁]
    cases hq : ThriftParser.definition flags scopes fuel includes q d with
    | error e => rfl
    | ok q₁ => exact ih (h.definition hp₁ hq) hp

end SecondPass

section
variable {files : String → Option IdlFile} {includeFile : String → String → String}
variable {flags : Flags} {fuel : ℕ}

theorem parseDefinitions_nil {path : String} {nodes : List ProgramNode} {known : Known}
    {parent : Option Scope} {r : ProgramNode × Option Scope}
    (h : parseDefinitions files flags fuel path nodes known parent = .ok r)
    (other : Option Scope) :
    parseDefinitions files flags fuel path [] known other =
      (parseDefinitions files flags fuel path nodes known other).map fun r =>
        ({ r.1 with includes := [] }, r.2) := by
  obtain ⟨file, hfile, h⟩ := bind_ok h
  obtain ⟨p, hp, h⟩ := bind_ok h
  unfold parseDefinitions
  rw [hfile]
  have hstart : SameOwn
      { program := { info := { path, namespaces := mapOfEntries file.namespaces } }
        scope := known.scope, parentScope := parent }
      { program := { info := { path, namespaces := mapOfEntries file.namespaces } }
        scope := known.scope, parentScope := other } := ⟨rfl, rfl⟩
  have hsame : parseProgram flags (fun q => (known.below q).getD {}) fuel [] path file
      known.scope other = parseProgram flags (fun q => (known.below q).getD {}) fuel
        (nodes.map ProgramNode.program) path file known.scope other := definitions_nil hstart hp
  change (parseProgram flags _ fuel [] path file known.scope other >>= _) =
    Except.map _ (parseProgram flags _ fuel _ path file known.scope other >>= _)
  rw [hsame]
  cases parseProgram flags (fun q => (known.below q).getD {}) fuel
    (nodes.map ProgramNode.program) path file known.scope other <;> rfl

/-- The second program is the first one with the includes of some programs in it left out. -/
inductive Pruned : ProgramNode → ProgramNode → Prop
  | known (n : ProgramNode) : Pruned { n with includes := [] } n
  | scanned (n : ProgramNode) (includes : List ProgramNode)
      (below : List.Forall₂ Pruned includes n.includes) : Pruned { n with includes } n

theorem Pruned.parts {n m : ProgramNode} (h : Pruned n m) :
    n.program = m.program ∧ n.scope = m.scope ∧ n.scopesBelow = m.scopesBelow := by
  cases h <;> exact ⟨rfl, rfl, rfl⟩

theorem pruned_programs {ns ms : List ProgramNode} (h : List.Forall₂ Pruned ns ms) :
    ns.map ProgramNode.program = ms.map ProgramNode.program := by
  induction h with
  | nil => rfl
  | cons hd _ ih => rw [List.map_cons, List.map_cons, hd.parts.1, ih]

theorem pruned_reach {ns ms : List ProgramNode} (h : List.Forall₂ Pruned ns ms) :
    ProgramNode.reach ns = ProgramNode.reach ms := by
  funext path
  induction h with
  | nil => rfl
  | cons hd _ ih =>
    obtain ⟨hprogram, hscope, hbelow⟩ := hd.parts
    unfold ProgramNode.reach ProgramNode.path at ih ⊢
    rw [List.findSome?_cons, List.findSome?_cons, hprogram, hscope, hbelow, ih]

/-- Two runs that end alike, with results related by `R`. -/
inductive Matches {α β : Type} (R : α → β → Prop) :
    Except CompileError α → Except CompileError β → Prop
  | error (e : CompileError) : Matches R (.error e) (.error e)
  | ok {a : α} {b : β} (h : R a b) : Matches R (.ok a) (.ok b)

/-- Where the first run is not cut off, neither is the second, and they end alike. -/
def Follows {α β : Type} (R : α → β → Prop) (x : Parsing α) (y : Parsing β) : Prop :=
  ∀ r, x.run = some r → ∃ r', y.run = some r' ∧ Matches R r r'

section Follows
variable {α β γ δ : Type} {R : α → β → Prop} {S : γ → δ → Prop}

theorem Follows.pure {a : α} {b : β} (h : R a b) :
    Follows R (Pure.pure a : Parsing α) (Pure.pure b : Parsing β) := by
  intro r hr
  obtain rfl := Option.some.inj hr
  exact ⟨_, rfl, .ok h⟩

theorem Follows.cutOff {y : Parsing β} : Follows R (IncludeProcessing.cutOff : Parsing α) y := by
  intro r hr
  cases hr

theorem Follows.ofCompile (x : Compile α) :
    Follows (fun a b => a = b) (IncludeProcessing.ofCompile x) (IncludeProcessing.ofCompile x) := by
  intro r hr
  refine ⟨r, hr, ?_⟩
  cases r with
  | error e => exact .error e
  | ok a => exact .ok rfl

theorem Follows.bind_of {x : Parsing α} {y : Parsing β} {f : α → Parsing γ}
    {g : β → Parsing δ} (hxy : Follows R x y)
    (hfg : ∀ a b, x.run = some (.ok a) → R a b → Follows S (f a) (g b)) :
    Follows S (x >>= f) (y >>= g) := by
  intro r hr
  rw [ExceptT.run_bind] at hr ⊢
  cases hx : x.run with
  | none =>
    rw [hx] at hr
    cases hr
  | some rx =>
    obtain ⟨ry, hy, hmatch⟩ := hxy rx hx
    rw [hx] at hr
    rw [hy]
    cases hmatch with
    | error e =>
      obtain rfl := Option.some.inj hr
      exact ⟨_, rfl, .error e⟩
    | @ok a b hab => exact hfg a b hx hab r hr

theorem Follows.bind {x : Parsing α} {y : Parsing β} {f : α → Parsing γ} {g : β → Parsing δ}
    (hxy : Follows R x y) (hfg : ∀ a b, R a b → Follows S (f a) (g b)) :
    Follows S (x >>= f) (y >>= g) :=
  hxy.bind_of fun a b _ hab => hfg a b hab

end Follows

/-- What the recursion below a file leaves, without the cache. -/
def Expands (files : String → Option IdlFile) (includeFile : String → String → String)
    (flags : Flags) (fuel depth : ℕ) (path : String) (nodes : List ProgramNode)
    (scope : Scope) : Prop :=
  ∃ known known' paths, scanIncludes files includeFile flags path = .ok paths ∧
    (parseIncludes (parse files includeFile flags fuel false depth) paths {} known).run =
      some (.ok (nodes, scope, known'))

/-- An entry of the cache that is what a scan of the file again would give, for a file
    that was accepted. -/
def Justified (files : String → Option IdlFile) (includeFile : String → String → String)
    (flags : Flags) (fuel : ℕ) (path : String) (entry : Known) : Prop :=
  ∃ depth nodes, Expands files includeFile flags fuel depth path nodes entry.scope ∧
    entry.below = ProgramNode.reach nodes ∧
      ∃ parent r, parseDefinitions files flags fuel path nodes entry parent = .ok r

def Valid (files : String → Option IdlFile) (includeFile : String → String → String)
    (flags : Flags) (fuel : ℕ) (known : ProgramToScope) : Prop :=
  ∀ path entry, known.lookup path = some entry →
    Justified files includeFile flags fuel path entry

theorem follows_fresh_loop {one one' : String → Option Scope → ProgramToScope →
      Parsing (ProgramNode × Option Scope × ProgramToScope)}
    (hone : ∀ p parent known known', Follows (fun a b => a.1 = b.1 ∧ a.2.1 = b.2.1)
      (one p parent known) (one' p parent known'))
    (paths : List String) (scope : Scope) (known known' : ProgramToScope) :
    Follows (fun a b => a.1 = b.1 ∧ a.2.1 = b.2.1) (parseIncludes one paths scope known)
      (parseIncludes one' paths scope known') := by
  induction paths generalizing scope known known' with
  | nil => exact Follows.pure ⟨rfl, rfl⟩
  | cons p paths ih =>
    refine (hone p (some scope) known known').bind ?_
    rintro ⟨node, parent, k⟩ ⟨_, _, k'⟩ ⟨rfl, rfl⟩
    refine (ih (parent.getD scope) k k').bind ?_
    rintro ⟨nodes, scope, k⟩ ⟨_, _, k'⟩ ⟨rfl, rfl⟩
    exact Follows.pure ⟨rfl, rfl⟩

theorem follows_fresh {depth depth' : ℕ} (hdepth : depth ≤ depth') (path : String)
    (parent : Option Scope) (known known' : ProgramToScope) :
    Follows (fun a b => a.1 = b.1 ∧ a.2.1 = b.2.1)
      (parse files includeFile flags fuel false depth path parent known)
      (parse files includeFile flags fuel false depth' path parent known') := by
  induction depth generalizing depth' path parent known known' with
  | zero => exact Follows.cutOff
  | succ depth ih =>
    obtain ⟨depth', rfl⟩ := Nat.exists_eq_succ_of_ne_zero (by omega : depth' ≠ 0)
    unfold parse
    refine (Follows.ofCompile _).bind fun paths _ hpaths => ?_
    subst hpaths
    refine (follows_fresh_loop (fun p parent known known' =>
      ih (by omega) p parent known known') paths {} known known').bind ?_
    rintro ⟨nodes, scope, k⟩ ⟨_, _, k'⟩ ⟨rfl, rfl⟩
    refine (Follows.ofCompile _).bind fun c _ hc => ?_
    subst hc
    exact Follows.pure ⟨rfl, rfl⟩

theorem follows_deeper_loop {one one' : String → Option Scope → ProgramToScope →
      Parsing (ProgramNode × Option Scope × ProgramToScope)}
    (hone : ∀ p parent known, Follows (fun a b => a = b) (one p parent known)
      (one' p parent known)) (paths : List String) (scope : Scope) (known : ProgramToScope) :
    Follows (fun a b => a = b) (parseIncludes one paths scope known)
      (parseIncludes one' paths scope known) := by
  induction paths generalizing scope known with
  | nil => exact Follows.pure rfl
  | cons p paths ih =>
    refine (hone p (some scope) known).bind ?_
    rintro ⟨node, parent, k⟩ _ rfl
    refine (ih (parent.getD scope) k).bind ?_
    rintro ⟨nodes, scope, k⟩ _ rfl
    exact Follows.pure rfl

theorem follows_deeper {depth depth' : ℕ} (hdepth : depth ≤ depth') (useCache : Bool)
    (path : String) (parent : Option Scope) (known : ProgramToScope) :
    Follows (fun a b => a = b) (parse files includeFile flags fuel useCache depth path parent known)
      (parse files includeFile flags fuel useCache depth' path parent known) := by
  induction depth generalizing depth' path parent known with
  | zero => exact Follows.cutOff
  | succ depth ih =>
    obtain ⟨depth', rfl⟩ := Nat.exists_eq_succ_of_ne_zero (by omega : depth' ≠ 0)
    unfold parse
    split
    · refine (Follows.ofCompile _).bind fun c _ hc => ?_
      subst hc
      exact Follows.pure rfl
    · refine (Follows.ofCompile _).bind fun paths _ hpaths => ?_
      subst hpaths
      refine (follows_deeper_loop (fun p parent known =>
        ih (by omega) p parent known) paths {} known).bind ?_
      rintro ⟨nodes, scope, k⟩ _ rfl
      refine (Follows.ofCompile _).bind fun c _ hc => ?_
      subst hc
      exact Follows.pure rfl

theorem accepted_deeper {depth depth' : ℕ} (hdepth : depth ≤ depth') {useCache : Bool}
    {path : String} {parent : Option Scope} {known : ProgramToScope}
    {r : ProgramNode × Option Scope × ProgramToScope}
    (h : (parse files includeFile flags fuel useCache depth path parent known).run =
      some (.ok r)) :
    (parse files includeFile flags fuel useCache depth' path parent known).run = some (.ok r) := by
  obtain ⟨r', hr', hsame⟩ := follows_deeper hdepth useCache path parent known _ h
  cases hsame with
  | ok heq => rw [hr', heq]

theorem expands_unique {depth depth' : ℕ} {path : String} {paths : List String}
    {nodes : List ProgramNode} {scope : Scope} {known : ProgramToScope}
    (h : Expands files includeFile flags fuel depth path nodes scope)
    (hscan : scanIncludes files includeFile flags path = .ok paths)
    {r : Except CompileError (List ProgramNode × Scope × ProgramToScope)}
    (hr : (parseIncludes (parse files includeFile flags fuel false depth') paths {} known).run =
      some r) : ∃ known', r = .ok (nodes, scope, known') := by
  obtain ⟨known₁, known₂, paths', hscan', hloop⟩ := h
  rw [hscan] at hscan'
  obtain rfl := Except.ok.inj hscan'
  have hleft := follows_fresh_loop (fun p parent known known' =>
    follows_fresh (le_max_left depth depth') p parent known known') paths {} known₁ [] _ hloop
  have hright := follows_fresh_loop (fun p parent known known' =>
    follows_fresh (le_max_right depth depth') p parent known known') paths {} known [] _ hr
  obtain ⟨s, hs, hmatch⟩ := hleft
  obtain ⟨s', hs', hmatch'⟩ := hright
  rw [hs] at hs'
  obtain rfl := Option.some.inj hs'
  cases hmatch with
  | ok hab =>
    cases hmatch' with
    | @ok a _ hab' =>
      obtain ⟨nodes', scope', known'⟩ := a
      obtain ⟨rfl, rfl⟩ := hab
      obtain ⟨rfl, rfl⟩ := hab'
      exact ⟨known', rfl⟩

def Agree (files : String → Option IdlFile) (includeFile : String → String → String)
    (flags : Flags) (fuel : ℕ) (fresh cached : ProgramNode × Option Scope × ProgramToScope) :
    Prop :=
  Pruned cached.1 fresh.1 ∧ cached.2.1 = fresh.2.1 ∧
    Valid files includeFile flags fuel cached.2.2

theorem follows_known {depth : ℕ} {path : String} {known : ProgramToScope} {entry : Known}
    (hvalid : Valid files includeFile flags fuel known)
    (hfound : known.lookup path = some entry) (parent : Option Scope) (known₀ : ProgramToScope) :
    Follows (Agree files includeFile flags fuel)
      (parse files includeFile flags fuel false (depth + 1) path parent known₀)
      (parse files includeFile flags fuel true (depth + 1) path parent known) := by
  obtain ⟨depth', nodes, hexpands, hbelow, parent', r', haccepted⟩ := hvalid path entry hfound
  have hexpands' := hexpands
  obtain ⟨_, _, paths, hscan, -⟩ := hexpands'
  intro r hr
  unfold parse at hr ⊢
  simp only [↓reduceIte, hfound]
  have hpaths : (ofCompile (scanIncludes files includeFile flags path)).run =
      some (.ok paths) := congrArg some hscan
  simp only [Bool.false_eq_true, ↓reduceIte] at hr
  rw [run_of_ok hpaths] at hr
  cases hloop : (parseIncludes (parse files includeFile flags fuel false depth) paths {}
      known₀).run with
  | none =>
    rw [ExceptT.run_bind, hloop] at hr
    cases hr
  | some res =>
    obtain ⟨known', rfl⟩ := expands_unique hexpands hscan hloop
    rw [run_of_ok hloop] at hr
    have hentry : (⟨entry.scope, ProgramNode.reach nodes⟩ : Known) = entry := by rw [← hbelow]
    dsimp only at hr
    rw [hentry] at hr
    have hsame := parseDefinitions_nil haccepted parent
    rw [hsame]
    cases hdefs : parseDefinitions files flags fuel path nodes entry parent with
    | error e =>
      rw [hdefs] at hr
      obtain rfl := Option.some.inj hr
      exact ⟨_, rfl, .error e⟩
    | ok r' =>
      rw [hdefs] at hr
      obtain rfl := Option.some.inj hr
      exact ⟨_, rfl, .ok ⟨Pruned.known r'.1, rfl, hvalid⟩⟩

theorem follows_loop {one one' : String → Option Scope → ProgramToScope →
      Parsing (ProgramNode × Option Scope × ProgramToScope)}
    (hone : ∀ p parent known₀ known, Valid files includeFile flags fuel known →
      Follows (Agree files includeFile flags fuel) (one p parent known₀) (one' p parent known))
    (paths : List String) (scope : Scope) (known₀ : ProgramToScope) {known : ProgramToScope}
    (hvalid : Valid files includeFile flags fuel known) :
    Follows (fun a b => List.Forall₂ Pruned b.1 a.1 ∧ b.2.1 = a.2.1 ∧
        Valid files includeFile flags fuel b.2.2)
      (parseIncludes one paths scope known₀) (parseIncludes one' paths scope known) := by
  induction paths generalizing scope known₀ known with
  | nil => exact Follows.pure ⟨.nil, rfl, hvalid⟩
  | cons p paths ih =>
    refine (hone p (some scope) known₀ known hvalid).bind ?_
    rintro ⟨node, parent, k⟩ ⟨node', _, k'⟩ ⟨hnode, rfl, hk'⟩
    refine (ih _ k hk').bind ?_
    rintro ⟨nodes, scope, k⟩ ⟨nodes', _, k'⟩ ⟨hnodes, rfl, hk'⟩
    exact Follows.pure ⟨.cons hnode hnodes, rfl, hk'⟩

theorem follows_definitions (path : String) {nodes nodes' : List ProgramNode}
    (hnodes : List.Forall₂ Pruned nodes' nodes) (entry : Known) (parent : Option Scope) :
    Follows (fun a b => Pruned b.1 a.1 ∧ b.2 = a.2)
      (ofCompile (parseDefinitions files flags fuel path nodes entry parent))
      (ofCompile (parseDefinitions files flags fuel path nodes' entry parent)) := by
  intro r hr
  obtain rfl := Option.some.inj hr
  refine ⟨_, rfl, ?_⟩
  unfold parseDefinitions
  rw [pruned_programs hnodes]
  cases openFile files path with
  | error e => exact .error e
  | ok file =>
    change Matches _ (parseProgram flags _ fuel _ path file entry.scope parent >>= _)
      (parseProgram flags _ fuel _ path file entry.scope parent >>= _)
    cases parseProgram flags (fun q => (entry.below q).getD {}) fuel
        (nodes.map ProgramNode.program) path file entry.scope parent with
    | error e => exact .error e
    | ok p =>
      exact .ok ⟨Pruned.scanned ⟨p.program, nodes, p.scope, entry.below⟩ nodes' hnodes, rfl⟩

/-- The run with the cache agrees with the run without it. -/
theorem follows_cached (depth : ℕ) (path : String) (parent : Option Scope)
    (known₀ : ProgramToScope) {known : ProgramToScope}
    (hvalid : Valid files includeFile flags fuel known) :
    Follows (Agree files includeFile flags fuel)
      (parse files includeFile flags fuel false depth path parent known₀)
      (parse files includeFile flags fuel true depth path parent known) := by
  induction depth generalizing path parent known₀ known with
  | zero => exact Follows.cutOff
  | succ depth ih =>
    cases hfound : known.lookup path with
    | some entry => exact follows_known hvalid hfound parent known₀
    | none =>
      unfold parse
      simp only [↓reduceIte, hfound, Bool.false_eq_true]
      refine (Follows.ofCompile _).bind_of fun paths _ hpaths heq => ?_
      subst heq
      refine (follows_loop (fun p parent known₀ known hvalid =>
        ih p parent known₀ hvalid) paths {} known₀ hvalid).bind_of ?_
      rintro ⟨nodes, scope, k⟩ ⟨nodes', scope', k'⟩ hloop ⟨hnodes, hscope, hk'⟩
      dsimp only at hscope hnodes
      subst hscope
      dsimp only
      rw [pruned_reach hnodes]
      have hdefs := @follows_definitions files flags fuel path _ _
        hnodes ⟨scope', ProgramNode.reach nodes⟩ parent
      refine hdefs.bind_of ?_
      rintro ⟨node, parent'⟩ ⟨node', _⟩ hrun ⟨hnode, rfl⟩
      refine Follows.pure ⟨hnode, rfl, fun q entry hq => ?_⟩
      change List.lookup q ((path, _) :: k') = some entry at hq
      rw [SortedMap.lookup_cons_if] at hq
      split at hq
      · rename_i hpath
        subst hpath
        obtain rfl := Option.some.inj hq
        exact ⟨depth, nodes, ⟨known₀, k, paths, Option.some.inj hpaths, hloop⟩, rfl, parent, _,
          Option.some.inj hrun⟩
      · exact hk' q entry hq

/-- The program at a place of the tree: the includes to follow from the root. -/
def nodeAt (n : ProgramNode) : List ℕ → Option ProgramNode
  | [] => some n
  | i :: place => (n.includes[i]?).bind fun m => nodeAt m place

theorem Pruned.nodeAt {n m n' : ProgramNode} (h : Pruned n m) {place : List ℕ}
    (hn : ScopeCacheRefinement.nodeAt n place = some n') :
    ∃ m', ScopeCacheRefinement.nodeAt m place = some m' ∧ Pruned n' m' := by
  induction place generalizing n m with
  | nil =>
    obtain rfl := Option.some.inj hn
    exact ⟨m, rfl, h⟩
  | cons i place ih =>
    unfold ScopeCacheRefinement.nodeAt at hn ⊢
    obtain ⟨c, hc, hn⟩ := Option.bind_eq_some_iff.mp hn
    cases h with
    | known => simp at hc
    | scanned _ includes below =>
      obtain ⟨hi, hc⟩ := List.getElem?_eq_some_iff.mp hc
      have hlength := below.length_eq
      have hpair := below.get hi (hlength ▸ hi)
      have hi' : i < m.includes.length := hlength ▸ hi
      rw [List.getElem?_eq_getElem hi']
      subst hc
      exact ih hpair hn

/-- Two programs of one file whose scopes bind every name alike, to the same
    definitions, and whose types lead to the same scopes. -/
structure SameBindings (n m : ProgramNode) : Prop where
  path : n.path = m.path
  types : ∀ name, n.scope.getType name = m.scope.getType name
  constants : ∀ name, n.scope.getConstant name = m.scope.getConstant name
  services : ∀ name, n.scope.getService name = m.scope.getService name
  below : ∀ path, n.scopesBelow path = m.scopesBelow path

theorem Pruned.sameBindings {n m : ProgramNode} (h : Pruned n m) : SameBindings n m := by
  obtain ⟨hprogram, hscope, hbelow⟩ := h.parts
  exact ⟨by unfold ProgramNode.path; rw [hprogram], fun _ => by rw [hscope],
    fun _ => by rw [hscope], fun _ => by rw [hscope], fun _ => by rw [hbelow]⟩

end

/-- Over a finite acyclic graph `parse` fails alike with and without the cache, and
    every program of the run with it has the bindings of its place in the other. -/
theorem cache_keeps_bindings (files : String → Option IdlFile)
    (includeFile : String → String → String) (flags : Flags) (fuel : ℕ) (S : Finset String)
    (root : String) (closed : ∀ p ∈ S, ∀ q ∈ includesOf files includeFile p, q ∈ S)
    (mem : root ∈ S) (acyclic : Acyclic files includeFile root) :
    ∃ bound, ∀ depth, bound ≤ depth → ∃ cached fresh,
      (parse files includeFile flags fuel true depth root none []).run = some cached ∧
      (parse files includeFile flags fuel false depth root none []).run = some fresh ∧
      (∀ e, cached = .error e ↔ fresh = .error e) ∧
      ∀ a b, cached = .ok a → fresh = .ok b → ∀ place n, nodeAt a.1 place = some n →
        ∃ m, nodeAt b.1 place = some m ∧ SameBindings n m := by
  refine ⟨height files includeFile S root + 1, fun depth hdepth => ?_⟩
  have hreturns : Returns (parse files includeFile flags fuel false depth root none []) :=
    returns_parse false closed depth mem acyclic (by omega) none []
  obtain ⟨fresh, hfresh⟩ := Option.isSome_iff_exists.mp hreturns
  have hvalid : Valid files includeFile flags fuel [] := fun _ _ h => nomatch h
  obtain ⟨cached, hcached, hmatch⟩ := follows_cached depth root none [] hvalid fresh hfresh
  refine ⟨cached, fresh, hcached, hfresh, fun e => ?_, fun a b ha hb place n hn => ?_⟩
  · cases hmatch with
    | error e' => simp
    | ok h => simp
  · subst ha hb
    cases hmatch with
    | ok h =>
      obtain ⟨m, hm, hpruned⟩ := h.1.nodeAt hn
      exact ⟨m, hm, hpruned.sameBindings⟩

theorem diamond_accepted (useCache : Bool) : ∃ r,
    (parse diamond (fun _ file => file) {} 10 useCache 3 "r.thrift" none []).run =
      some (.ok r) := by
  have hok : (parse diamond (fun _ file => file) {} 10 useCache 3 "r.thrift" none []).run.map
      Except.isOk = some true := by
    cases useCache <;> decide +kernel
  obtain ⟨r, hr, hok⟩ := Option.map_eq_some_iff.mp hok
  cases r with
  | error e => cases hok
  | ok r => exact ⟨r, hr⟩

/-- Both runs over it are accepted. -/
theorem cache_keeps_bindings_diamond : ∃ bound, ∀ depth, bound ≤ depth → ∃ a b,
    (parse diamond (fun _ file => file) {} 10 true depth "r.thrift" none []).run =
      some (.ok a) ∧
    (parse diamond (fun _ file => file) {} 10 false depth "r.thrift" none []).run =
      some (.ok b) ∧
    ∀ place n, nodeAt a.1 place = some n → ∃ m, nodeAt b.1 place = some m ∧ SameBindings n m := by
  obtain ⟨bound, h⟩ := cache_keeps_bindings diamond (fun _ file => file) {} 10
    {"r.thrift", "a.thrift", "b.thrift"} "r.thrift" (by decide +kernel) (by decide) diamond_acyclic
  obtain ⟨a, ha⟩ := diamond_accepted true
  obtain ⟨b, hb⟩ := diamond_accepted false
  refine ⟨max bound 3, fun depth hdepth => ⟨a, b, ?_⟩⟩
  have hcached := accepted_deeper (by omega : 3 ≤ depth) ha
  have hfresh := accepted_deeper (by omega : 3 ≤ depth) hb
  obtain ⟨_, _, hc, hf, -, hsame⟩ := h depth (by omega)
  rw [hcached] at hc
  rw [hfresh] at hf
  exact ⟨hcached, hfresh, hsame a b (Option.some.inj hc).symm (Option.some.inj hf).symm⟩

end Sparsam.ScopeCacheRefinement
