import Sparsam.ClassReferences
import Sparsam.NameResolution

set_option autoImplicit false

/-!
# Loading a generated file

The class statements of a types file stand in the order of the declarations and
read class constants while their bodies are evaluated. What an included file
declares is there by then, a class that the file itself declares further down is
not: the parser takes such names, as forward typedefs.
-/
namespace Sparsam.LoadOrder
open ThriftTypes ThriftScope ThriftParser FieldLists IncludeProcessing IncludeTermination
open IncludeCoverage ProgramTree NameResolution RubyNames SchemaLiteral ClassReferences

/-- Evaluating class statements in turn, from the class constants defined so far; the
    error is the constant of the `NameError`. -/
def load (defined : List (List String)) :
    List ClassStatement → Except (List String) (List (List String))
  | [] => .ok defined
  | c :: cs =>
    match c.fields.classes.find? fun path => !(c.path :: defined).contains path with
    | some path => .error path
    | none => load (c.path :: defined) cs

section Load
variable {scopes : String → Scope} {fuel : ℕ}

theorem load_cons (defined : List (List String)) (c : ClassStatement)
    (cs : List ClassStatement) :
    load defined (c :: cs) =
      match c.fields.classes.find? fun path => !(c.path :: defined).contains path with
      | some path => .error path
      | none => load (c.path :: defined) cs := rfl

theorem load_cons_iff (defined : List (List String)) (c : ClassStatement)
    (cs : List ClassStatement) :
    (∃ d, load defined (c :: cs) = .ok d) ↔
      (∀ path ∈ c.fields.classes, path ∈ c.path :: defined) ∧
        ∃ d, load (c.path :: defined) cs = .ok d := by
  rw [load_cons]
  cases hfind : c.fields.classes.find? fun path => !(c.path :: defined).contains path with
  | some path =>
    have hmem := List.mem_of_find?_eq_some hfind
    have hmissing : path ∉ c.path :: defined := by
      have hfound := List.find?_some hfind
      rw [Bool.not_eq_true'] at hfound
      intro hin
      rw [List.contains_iff_mem.mpr hin] at hfound
      cases hfound
    constructor
    · rintro ⟨d, hd⟩
      cases hd
    · exact fun h => absurd (h.1 path hmem) hmissing
  | none =>
    refine ⟨fun h => ⟨fun path hpath => ?_, h⟩, fun h => h.2⟩
    have hin := List.find?_eq_none.mp hfind path hpath
    rw [Bool.not_eq_true', Bool.not_eq_false] at hin
    exact List.contains_iff_mem.mp hin

/-- Every class that one of these structs refers to is defined before them, or is that
    of a struct no later than the one that refers to it. -/
def InOrder (scopes : String → Scope) (defined : List (List String)) (objects : List TStruct) :
    Prop :=
  ∀ earlier o later, objects = earlier ++ o :: later → ∀ s, Refers scopes o s →
    classPath s ∈ defined ∨ ∃ e ∈ earlier ++ [o], classPath e = classPath s

theorem inOrder_cons_iff (defined : List (List String)) (o : TStruct) (os : List TStruct) :
    InOrder scopes defined (o :: os) ↔
      (∀ s, Refers scopes o s → classPath s ∈ classPath o :: defined) ∧
        InOrder scopes (classPath o :: defined) os := by
  constructor
  · intro h
    refine ⟨fun s hs => ?_, fun earlier p later hsplit s hs => ?_⟩
    · rcases h [] o os rfl s hs with hdefined | ⟨e, he, hpath⟩
      · exact List.mem_cons_of_mem _ hdefined
      · rw [List.nil_append, List.mem_singleton] at he
        rw [← hpath, he]
        exact List.mem_cons_self
    · rcases h (o :: earlier) p later (by rw [hsplit]; rfl) s hs with hdefined | ⟨e, he, hpath⟩
      · exact .inl (List.mem_cons_of_mem _ hdefined)
      · rcases List.mem_cons.mp he with rfl | he
        · exact .inl (hpath ▸ List.mem_cons_self)
        · exact .inr ⟨e, he, hpath⟩
  · rintro ⟨hfirst, hrest⟩ earlier p later hsplit s hs
    cases earlier with
    | nil =>
      obtain ⟨rfl, rfl⟩ := List.cons.inj hsplit
      rcases List.mem_cons.mp (hfirst s hs) with hown | hdefined
      · exact .inr ⟨o, by simp, hown.symm⟩
      · exact .inl hdefined
    | cons e earlier =>
      obtain ⟨rfl, htail⟩ := List.cons.inj hsplit
      rcases hrest earlier p later htail s hs with hdefined | ⟨f, hf, hpath⟩
      · rcases List.mem_cons.mp hdefined with hown | hdefined
        · exact .inr ⟨o, by simp, hown.symm⟩
        · exact .inl hdefined
      · exact .inr ⟨f, List.mem_cons_of_mem _ hf, hpath⟩

theorem load_iff_inOrder {info : TProgram} {objects : List TStruct} {cs : List ClassStatement}
    (h : objects.mapM (generateRbStruct scopes fuel info) = .ok cs)
    (hown : ∀ o ∈ objects, o.program = info) (defined : List (List String)) :
    (∃ d, load defined cs = .ok d) ↔ InOrder scopes defined objects := by
  induction objects generalizing cs defined with
  | nil =>
    rw [← Except.ok.inj h]
    constructor
    · intro _ earlier o later hsplit
      cases earlier <;> cases hsplit
    · exact fun _ => ⟨defined, rfl⟩
  | cons o os ih =>
    rw [List.mapM_cons] at h
    obtain ⟨c, hc, h⟩ := bind_ok h
    obtain ⟨cs', hcs, h⟩ := bind_ok h
    rw [← Except.ok.inj h]
    obtain ⟨hpath, hemits⟩ := generateRbStruct_emits hc
    have hclass : c.path = classPath o := by
      rw [hpath, ← hown o (by simp)]
      rfl
    rw [load_cons_iff, inOrder_cons_iff, ih hcs (fun p hp => hown p (by simp [hp])), hclass]
    refine and_congr_left fun _ => ⟨fun hall s hs => ?_, fun hall path hin => ?_⟩
    · exact hall _ ((hemits _).mpr ⟨s, hs, rfl⟩)
    · obtain ⟨s, hs, rfl⟩ := (hemits path).mp hin
      exact hall s hs

end Load

section Foreign
variable {files : String → Option IdlFile} {includeFile : String → String → String}
variable {n : ProgramNode}

/-- Read in the program's file or in one below it. -/
def Reads (files : String → Option IdlFile) (includeFile : String → String → String)
    (n : ProgramNode) (t : ThriftType) : Prop :=
  ∃ p, Relation.ReflTransGen (Includes files includeFile) n.path p ∧
    Written files includeFile p t

theorem Reads.part {t u : ThriftType} (h : Reads files includeFile n t) (hu : u ∈ parts t) :
    Reads files includeFile n u :=
  written_parts (G := fun p => Relation.ReflTransGen (Includes files includeFile) n.path p)
    (fun _ _ hp hq => hp.tail hq) h u hu

theorem mem_parts_self (t : ThriftType) : t ∈ parts t := by
  cases t <;> simp [parts]

theorem reads_bound {p : String} (hp : Relation.ReflTransGen (Includes files includeFile) n.path p)
    {x q y : String} {t : ThriftType} (hx : Visible files includeFile p x q y)
    (ht : Declares files includeFile q y t) : Reads files includeFile n t := by
  have hq := good_of_visible (G := fun p =>
    Relation.ReflTransGen (Includes files includeFile) n.path p) (fun _ _ hp hq => hp.tail hq) hp hx
  exact ⟨q, hq, written_declared ht⟩

theorem Reads.getTrueType (hn : NodeSound files includeFile n) {fuel : ℕ} {t u : ThriftType}
    (h : Reads files includeFile n t)
    (ht : ThriftScope.getTrueType (nodeScopes n) fuel t = .ok u) :
    Reads files includeFile n u := by
  induction fuel generalizing t with
  | zero => cases ht
  | succ fuel ih =>
    cases t with
    | typedef info name t => exact ih (h.part (List.mem_cons_of_mem _ (mem_parts_self t))) ht
    | forwardTypedef info name =>
      obtain ⟨p, hp, type, hdenotes⟩ := h
      simp only [ThriftScope.getTrueType, getType] at ht
      cases hfound : (nodeScopes n info.path).getType name with
      | none =>
        rw [hfound] at ht
        cases ht
      | some t =>
        rw [hfound] at ht
        cases hdenotes with
        | bound _ hdeclares => cases hdeclares
        | forward _ hpath =>
          obtain ⟨q, y, hx, hdeclares⟩ := hn.scopes _ _ (SortedMap.mem_of_lookup hfound)
          exact ih (reads_bound (hpath ▸ hp) hx hdeclares) ht
    | _ =>
      rw [← Except.ok.inj ht]
      exact h

theorem Reads.expands (hn : NodeSound files includeFile n) {t u : ThriftType}
    (h : Reads files includeFile n t) (ht : Expands (nodeScopes n) t u) :
    Reads files includeFile n u := by
  obtain ⟨fuel, ht⟩ := ht
  exact h.getTrueType hn ht

theorem Reads.struct {s : TStruct} (h : Reads files includeFile n (.struct s)) :
    ∃ p, Relation.ReflTransGen (Includes files includeFile) n.path p ∧
      DeclaredIn files includeFile p s := by
  obtain ⟨p, hp, type, hdenotes⟩ := h
  cases hdenotes with
  | bound hx ht =>
    refine ⟨_, ?_, declaredIn_of_declares ht⟩
    exact good_of_visible (G := fun p =>
      Relation.ReflTransGen (Includes files includeFile) n.path p) (fun _ _ hp hq => hp.tail hq)
      hp hx

theorem memberType_mem {k : TStruct} {name : String} {m : ThriftType}
    (h : memberType k name = some m) : ∃ f ∈ k.members, f.type = m := by
  have hfold : ∀ (fs : List TField) (found : Option ThriftType),
      fs.foldl (fun found f => if f.name = name then some f.type else found) found = some m →
        found = some m ∨ ∃ f ∈ fs, f.type = m := by
    intro fs
    induction fs with
    | nil => exact fun found h => .inl h
    | cons f fs ih =>
      intro found h
      rcases ih _ h with h | ⟨g, hg, hm⟩
      · dsimp only at h
        split at h
        · exact .inr ⟨f, by simp, Option.some.inj h⟩
        · exact .inl h
      · exact .inr ⟨g, by simp [hg], hm⟩
  rcases hfold k.members none h with h | h
  · cases h
  · exact h

theorem Reads.member {k : TStruct} (h : Reads files includeFile n (.struct k)) {f : TField}
    (hf : f ∈ k.members) : Reads files includeFile n f.type := by
  obtain ⟨p, hp, hdeclared⟩ := h.struct
  exact ⟨p, hp, hdeclared.members f hf⟩

theorem Reads.typeRefers (hn : NodeSound files includeFile n) {t : ThriftType} {s : TStruct}
    (h : Reads files includeFile n t) (hs : TypeRefers (nodeScopes n) t s) :
    Reads files includeFile n (.struct s) := by
  induction hs with
  | struct ht => exact h.expands hn ht
  | list ht _ ih => exact ih ((h.expands hn ht).part (List.mem_cons_of_mem _ (mem_parts_self _)))
  | set ht _ ih => exact ih ((h.expands hn ht).part (List.mem_cons_of_mem _ (mem_parts_self _)))
  | key ht _ ih =>
    exact ih ((h.expands hn ht).part (by simp [parts, mem_parts_self]))
  | value ht _ ih =>
    exact ih ((h.expands hn ht).part (by simp [parts, mem_parts_self]))

theorem Reads.valueRefers (hn : NodeSound files includeFile n) {t : ThriftType} {cv : ConstValue}
    {s : TStruct} (h : Reads files includeFile n t) (hs : ValueRefers (nodeScopes n) t cv s) :
    Reads files includeFile n (.struct s) := by
  induction hs with
  | struct ht => exact h.expands hn ht
  | member ht _ hm _ ih =>
    obtain ⟨f, hf, rfl⟩ := memberType_mem hm
    exact ih ((h.expands hn ht).member hf)
  | listElem ht _ _ ih =>
    exact ih ((h.expands hn ht).part (List.mem_cons_of_mem _ (mem_parts_self _)))
  | setElem ht _ _ ih =>
    exact ih ((h.expands hn ht).part (List.mem_cons_of_mem _ (mem_parts_self _)))
  | key ht _ _ ih => exact ih ((h.expands hn ht).part (by simp [parts, mem_parts_self]))
  | value ht _ _ ih => exact ih ((h.expands hn ht).part (by simp [parts, mem_parts_self]))

theorem refers_declared (hn : NodeSound files includeFile n) {o s : TStruct}
    (ho : o ∈ n.program.objects) (hs : Refers (nodeScopes n) o s) :
    ∃ p, Relation.ReflTransGen (Includes files includeFile) n.path p ∧
      DeclaredIn files includeFile p s := by
  obtain ⟨f, hf, hrefers⟩ := hs
  have htype : f.type ∈ programTypes n.program := by
    unfold programTypes
    rw [List.mem_append, List.mem_append]
    refine .inl (.inr (List.mem_flatMap.mpr ⟨o, ho, ?_⟩))
    exact List.mem_cons_of_mem _ (List.mem_map_of_mem hf)
  have hreads : Reads files includeFile n f.type := ⟨n.path, .refl, hn.types _ htype⟩
  rcases hrefers with htype | ⟨cv, -, hvalue⟩
  · exact (hreads.typeRefers hn htype).struct
  · exact (hreads.valueRefers hn hvalue).struct

end Foreign

section Objects
variable {files : String → Option IdlFile} {includeFile : String → String → String}
variable {flags : Flags} {scopes : String → Scope} {fuel : ℕ} {includes : List Program}

theorem elaborate_object {info : TProgram} {sc : Scope} {d : Definition} {e : Entry}
    (h : elaborate flags scopes fuel info sc d = .ok e) :
    (∀ o, e = .object o → o.program = info) ∧
      ∀ name, objectName? d = some name → ∃ o, e = .object o ∧ o.name = name := by
  cases d with
  | struct isUnion name fields =>
    obtain ⟨s, hs, h⟩ := bind_ok h
    obtain rfl := Except.ok.inj h
    obtain ⟨hname, -, hprogram, -⟩ := struct_ok hs
    refine ⟨fun o ho => ?_, fun x hx => ⟨s, rfl, hname.trans (Option.some.inj hx)⟩⟩
    rw [← Entry.object.inj ho, hprogram]
  | xception name fields =>
    obtain ⟨s, hs, h⟩ := bind_ok h
    obtain rfl := Except.ok.inj h
    obtain ⟨hname, -, hprogram, -⟩ := xception_ok hs
    refine ⟨fun o ho => ?_, fun x hx => ⟨s, rfl, hname.trans (Option.some.inj hx)⟩⟩
    rw [← Entry.object.inj ho, hprogram]
  | const type name value =>
    obtain ⟨u, -, h⟩ := bind_ok h
    obtain ⟨v, -, h⟩ := bind_ok h
    obtain ⟨w, -, h⟩ := bind_ok h
    obtain rfl := Except.ok.inj h
    exact ⟨nofun, nofun⟩
  | typedef type name =>
    obtain ⟨u, -, h⟩ := bind_ok h
    obtain rfl := Except.ok.inj h
    exact ⟨nofun, nofun⟩
  | senum name =>
    obtain ⟨u, -, h⟩ := bind_ok h
    obtain rfl := Except.ok.inj h
    exact ⟨nofun, nofun⟩
  | enum name values =>
    obtain ⟨u, -, h⟩ := bind_ok h
    obtain rfl := Except.ok.inj h
    exact ⟨nofun, nofun⟩
  | service name parent functions =>
    obtain ⟨u, -, h⟩ := bind_ok h
    obtain rfl := Except.ok.inj h
    exact ⟨nofun, nofun⟩

theorem add_objects (p : Program) (e : Entry) :
    p.objects ⊆ (p.add e).objects ∧
      ∀ o ∈ (p.add e).objects, o ∈ p.objects ∨ e = .object o := by
  cases e <;> simp [Program.add]
  intro o ho
  exact ho.imp_right Eq.symm

theorem definitions_objects {ds : List Definition} {pass pass' : Pass}
    (h : ds.foldlM (definition flags scopes fuel includes) pass = .ok pass') :
    pass.program.objects ⊆ pass'.program.objects ∧
      ∀ d ∈ ds, ∀ name, objectName? d = some name → ∃ o ∈ pass'.program.objects, o.name = name := by
  induction ds generalizing pass with
  | nil =>
    rw [← Except.ok.inj h]
    exact ⟨List.Subset.refl _, by simp⟩
  | cons d ds ih =>
    obtain ⟨q, hq, hrest⟩ := bind_ok h
    obtain ⟨e, he, henter⟩ := bind_ok hq
    have hadd := add_objects pass.program e
    rw [← enter_program henter] at hadd
    obtain ⟨hgrow, hnames⟩ := ih hrest
    refine ⟨List.Subset.trans hadd.1 hgrow, fun d' hd name hname => ?_⟩
    rcases List.mem_cons.mp hd with rfl | hd
    · obtain ⟨o, rfl, ho⟩ := (elaborate_object he).2 name hname
      refine ⟨o, hgrow ?_, ho⟩
      rw [enter_program henter]
      simp [Program.add]
    · exact hnames d' hd name hname

theorem made_objects {m : ProgramNode} (h : Made files flags fuel m) :
    m.program.info = programOf files m.path ∧
      (∀ o ∈ m.program.objects, o.program = m.program.info) ∧
      ∀ d ∈ definitionsOf files m.path, ∀ name, objectName? d = some name →
        ∃ o ∈ m.program.objects, o.name = name := by
  obtain ⟨file, scopes, includes, scope, parent, pass, hfile, hpass, hprogram, -⟩ := h.pass
  have hinfo := parseProgram_info hpass
  have hdefinitions : definitionsOf files m.path = file.definitions := by
    unfold definitionsOf
    rw [hfile]
  have hown : ∀ o ∈ pass.program.objects, o.program = pass.program.info := by
    apply definitions_invariant (P := fun q => ∀ o ∈ q.program.objects,
      o.program = q.program.info) hpass (by simp)
    intro d _ q q' e hq he henter o ho
    have hsame : q'.program.info = q.program.info := by
      rw [enter_program henter]
      cases e <;> rfl
    rw [enter_program henter] at ho
    rw [hsame]
    rcases (add_objects _ e).2 o ho with ho | heq
    · exact hq o ho
    · exact (elaborate_object he).1 o heq
  rw [hprogram, hdefinitions]
  refine ⟨?_, hown, (definitions_objects hpass).2⟩
  rw [hinfo]
  unfold programOf
  rw [hfile]

end Objects

section Main

/-- The classes that the files below the program's file declare. -/
def RequiredClass (files : String → Option IdlFile) (includeFile : String → String → String)
    (programs : List ProgramNode) (n : ProgramNode) (c : List String) : Prop :=
  ∃ m ∈ programs, Relation.TransGen (Includes files includeFile) n.path m.path ∧
    ∃ o ∈ m.program.objects, classPath o = c

/-- No struct of the program refers to one that its file declares further down, unless
    the constant of that one is a class already. -/
def NoForwardReference (n : ProgramNode) (required : List (List String)) : Prop :=
  ∀ earlier o later, n.program.objects = earlier ++ o :: later →
    ∀ s, Refers (nodeScopes n) o s → s.program.path = n.path →
      classPath s ∈ required ∨ ∃ e ∈ earlier ++ [o], classPath e = classPath s

/-- A generated types file, evaluated after the files it requires, defines all its
    classes exactly when no struct refers to a later one of the same file. -/
theorem load_iff_noForwardReference (files : String → Option IdlFile)
    (includeFile : String → String → String) (flags : Flags) (fuel depth : ℕ) (root : String)
    (r : ProgramNode × Option Scope × ProgramToScope)
    (accepted : (parse files includeFile flags fuel true depth root none []).run = some (.ok r))
    (n : ProgramNode) (hn : n ∈ (visits true r.1 []).1) (bound : ℕ)
    (classes : List ClassStatement)
    (generated : generateProgram (nodeScopes n) bound n.program = .ok classes)
    (required : List (List String))
    (hrequired : ∀ c, c ∈ required ↔
      RequiredClass files includeFile (visits true r.1 []).1 n c) :
    (∃ defined, load required classes = .ok defined) ↔ NoForwardReference n required := by
  obtain ⟨hroot, htree, -⟩ := parse_tree accepted
  obtain ⟨hsound, hreach⟩ := htree n (visits_within r.1 [] n hn)
  rw [hroot] at hreach
  obtain ⟨-, hown, -⟩ := made_objects (visits_made accepted n hn)
  rw [load_iff_inOrder generated hown]
  constructor
  · exact fun h earlier o later hsplit s hs _ => h earlier o later hsplit s hs
  · intro h earlier o later hsplit s hs
    have ho : o ∈ n.program.objects := by rw [hsplit]; simp
    obtain ⟨p, hp, ⟨d, hd, hname⟩, hprogram, -⟩ := refers_declared hsound ho hs
    have hpath : s.program.path = p := by rw [hprogram]; rfl
    rcases hp.cases_head with rfl | hbelow
    · exact h earlier o later hsplit s hs hpath
    · left
      have hmem := (mem_visits (acyclic_of_parse accepted) accepted p).mpr (hreach.trans hp)
      obtain ⟨m, hm, rfl⟩ := List.mem_map.mp hmem
      obtain ⟨hinfo, hobjects, hdeclared⟩ := made_objects (visits_made accepted m hm)
      obtain ⟨e, he, hename⟩ := hdeclared d hd s.name hname
      refine (hrequired _).mpr ⟨m, hm, ?_, e, he, ?_⟩
      · obtain ⟨q, hq, hqm⟩ := hbelow
        exact .head' hq hqm
      · unfold classPath
        rw [hename, hobjects e he, hinfo, hprogram]

abbrev Loaded := Except (List String) (List (List String))

instance : DecidableEq (Compile Loaded) :=
  inferInstanceAs (DecidableEq (Except CompileError (Except (List String) (List (List String)))))

def loadEach (x : Parsing (ProgramNode × Option Scope × ProgramToScope)) :
    Option (Except CompileError (List (Compile Loaded))) :=
  x.run.map fun r => r.map fun r => (visits true r.1 []).1.map fun n =>
    (generateProgram (nodeScopes n) 10 n.program).map (load [])

theorem loadEach_singleton {x : Parsing (ProgramNode × Option Scope × ProgramToScope)}
    {result : Loaded}
    (h : loadEach x = some (.ok [.ok result])) :
    ∃ r n classes, x.run = some (.ok r) ∧ (visits true r.1 []).1 = [n] ∧
      generateProgram (nodeScopes n) 10 n.program = .ok classes ∧ load [] classes = result := by
  unfold loadEach at h
  cases hx : x.run with
  | none =>
    rw [hx] at h
    cases h
  | some e =>
    rw [hx] at h
    cases e with
    | error e => cases Option.some.inj h
    | ok r =>
      obtain ⟨n, hn, hload⟩ := List.map_eq_singleton_iff.mp (Except.ok.inj (Option.some.inj h))
      cases hclasses : generateProgram (nodeScopes n) 10 n.program with
      | error e =>
        rw [hclasses] at hload
        cases hload
      | ok classes =>
        rw [hclasses] at hload
        exact ⟨r, n, classes, rfl, hn, hclasses, Except.ok.inj hload⟩

/-- `struct Leaf {}` and `struct Tree { 1: list<Tree> kids, 2: Leaf leaf }` -/
def tree (p : String) : Option IdlFile :=
  if p = "a.thrift" then
    some {
      definitions := [.struct false "Leaf" [], .struct false "Tree" [
        { identifier := some 1, type := .list (.identifier "Tree"), name := "kids" },
        { identifier := some 2, type := .identifier "Leaf", name := "leaf" }]] }
  else none

theorem tree_loads : ∃ r n,
    (parse tree (fun _ file => file) {} 10 true 1 "a.thrift" none []).run = some (.ok r) ∧
      n ∈ (visits true r.1 []).1 ∧ NoForwardReference n [] := by
  obtain ⟨r, n, classes, hr, hn, hclasses, hload⟩ := loadEach_singleton
    (by decide +kernel :
      loadEach (parse tree (fun _ file => file) {} 10 true 1 "a.thrift" none []) =
        some (.ok [.ok (.ok [["Tree"], ["Leaf"]])]))
  have hmem : n ∈ (visits true r.1 []).1 := by simp [hn]
  have hnone : ∀ p q, ¬ Includes tree (fun _ file => file) p q := by
    intro p q hq
    unfold Includes includesOf tree at hq
    by_cases hp : p = "a.thrift" <;> simp [hp] at hq
  refine ⟨r, n, hr, hmem, ?_⟩
  apply (load_iff_noForwardReference _ _ _ _ _ _ r hr n hmem 10 classes hclasses [] ?_).mp
    ⟨_, hload⟩
  refine fun c => ⟨fun h => absurd h List.not_mem_nil, ?_⟩
  rintro ⟨m, -, hbelow, -⟩
  obtain ⟨q, hq, -⟩ := Relation.TransGen.head'_iff.mp hbelow
  exact absurd hq (hnone _ q)

/-- `struct A { 1: B b }` and `struct B {}` -/
def forwardStruct (p : String) : Option IdlFile :=
  if p = "a.thrift" then
    some {
      definitions := [
        .struct false "A" [{ identifier := some 1, type := .identifier "B", name := "b" }],
        .struct false "B" []] }
  else none

theorem forwardStruct_not_loads : ∃ r n classes,
    (parse forwardStruct (fun _ file => file) {} 10 true 1 "a.thrift" none []).run =
        some (.ok r) ∧
      (visits true r.1 []).1 = [n] ∧
      generateProgram (nodeScopes n) 10 n.program = .ok classes ∧
      load [] classes = .error ["B"] :=
  loadEach_singleton (by decide +kernel)

end Main

end Sparsam.LoadOrder
