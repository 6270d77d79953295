import Sparsam.FiniteGraph
import Sparsam.NameResolution

set_option autoImplicit false

/-!
# When the expansion of typedefs ends

A typedef of a name leads from one declaration to another. Includes make no
cycle once both passes are done, but the names of one file can: a forward
typedef may close a chain of typedefs, and `get_true_type` then goes round for
ever.
-/
namespace Sparsam.TypedefExpansion
open ThriftTypes ThriftScope ThriftParser IncludeProcessing IncludeTermination
open IncludeCoverage ProgramTree NameResolution

section Ends
variable (scopes : String → Scope)

/-- The loop of `get_true_type` ends at this type. -/
def Ends (t : ThriftType) : Prop := ∃ fuel, getTrueType scopes fuel t ≠ .error .outOfFuel

variable {scopes}

theorem ends_of_getType {t : ThriftType} (h : getType scopes t = none) : Ends scopes t := by
  refine ⟨1, ?_⟩
  unfold getTrueType
  rw [h]
  exact nofun

theorem ends_typedef {p : TProgram} {s : String} {t : ThriftType} (h : Ends scopes t) :
    Ends scopes (.typedef p s t) := by
  obtain ⟨fuel, h⟩ := h
  exact ⟨fuel + 1, h⟩

theorem ends_forward {p : TProgram} {s : String}
    (h : ∀ t, (scopes p.path).getType s = some t → Ends scopes t) :
    Ends scopes (.forwardTypedef p s) := by
  cases hfound : (scopes p.path).getType s with
  | none =>
    refine ⟨1, ?_⟩
    simp only [getTrueType, getType, hfound]
    exact nofun
  | some t =>
    obtain ⟨fuel, hends⟩ := h t hfound
    refine ⟨fuel + 1, ?_⟩
    simp only [getTrueType, getType, hfound]
    exact hends

end Ends

section Termination
variable {files : String → Option IdlFile} {includeFile : String → String → String}
variable {scopes : String → Scope}

/-- A typedef of one name to another leads from declaration to declaration. -/
def Next (files : String → Option IdlFile) (includeFile : String → String → String)
    (a b : String × String) : Prop :=
  ∃ x, .typedef (.identifier x) a.2 ∈ definitionsOf files a.1 ∧
    Visible files includeFile a.1 x b.1 b.2

theorem declares_ends (sound : ∀ p, Sound files includeFile p (scopes p)) {a : String × String}
    (hacc : Acc (flip (Next files includeFile)) a) {t : ThriftType}
    (h : Declares files includeFile a.1 a.2 t) : Ends scopes t := by
  induction hacc generalizing t with
  | intro a _ ih =>
    obtain ⟨p, y⟩ := a
    cases h with
    | senum => exact ends_typedef (ends_of_getType rfl)
    | enum => exact ends_of_getType rfl
    | object => exact ends_of_getType rfl
    | typedef hy ht =>
      apply ends_typedef
      cases ht with
      | baseType => exact ends_of_getType rfl
      | list => exact ends_of_getType rfl
      | set => exact ends_of_getType rfl
      | map => exact ends_of_getType rfl
      | bound hx ht => exact ih (_, _) ⟨_, hy, hx⟩ ht
      | forward x hpath =>
        apply ends_forward
        intro t hfound
        rw [hpath] at hfound
        obtain ⟨q, z, hx, ht⟩ := sound p _ (SortedMap.mem_of_lookup hfound)
        exact ih (q, z) ⟨x, hy, hx⟩ ht

/-- Every name the file can see leads to the end of a walk. -/
def Grounded (files : String → Option IdlFile) (includeFile : String → String → String)
    (p : String) : Prop :=
  ∀ x q y, Visible files includeFile p x q y → Acc (flip (Next files includeFile)) (q, y)

theorem denotes_ends (sound : ∀ p, Sound files includeFile p (scopes p)) {p : String}
    (hp : Grounded files includeFile p) {type : FieldType} {t : ThriftType}
    (h : Denotes files includeFile p type t) : Ends scopes t := by
  cases h with
  | baseType => exact ends_of_getType rfl
  | list => exact ends_of_getType rfl
  | set => exact ends_of_getType rfl
  | map => exact ends_of_getType rfl
  | bound hx ht => exact declares_ends sound (hp _ _ _ hx) ht
  | forward x hpath =>
    apply ends_forward
    intro t hfound
    rw [hpath] at hfound
    obtain ⟨q, z, hx, ht⟩ := sound p _ (SortedMap.mem_of_lookup hfound)
    exact declares_ends sound (hp x q z hx) ht

def AliasesAcyclic (files : String → Option IdlFile) (p : String) : Prop :=
  ∀ x, ¬ Relation.TransGen (Alias files p) x x

theorem acc_next {p : String} (hp : Acc (flip (Includes files includeFile)) p)
    (aliases : ∀ q, Relation.ReflTransGen (Includes files includeFile) p q →
      AliasesAcyclic files q) (y : String) : Acc (flip (Next files includeFile)) (p, y) := by
  induction hp generalizing y with
  | intro p _ ih =>
    have hfinite : Acc (flip (Alias files p)) y := by
      let targets := (definitionsOf files p).filterMap fun d =>
        match d with
        | .typedef (.identifier x) _ => some x
        | _ => none
      apply FiniteGraph.acc_of_acyclic (S := insert y targets.toFinset)
      · intro a _ x hx
        rw [Finset.mem_insert, List.mem_toFinset]
        exact .inr (List.mem_filterMap.mpr ⟨_, hx, rfl⟩)
      · exact Finset.mem_insert_self ..
      · exact fun x _ => aliases p .refl x
    induction hfinite with
    | intro y _ ihy =>
      refine ⟨_, fun b hb => ?_⟩
      obtain ⟨q, z⟩ := b
      obtain ⟨x, hx, hvisible⟩ := hb
      cases hvisible with
      | own => exact ihy _ hx
      | included _ hq => exact ih q hq (fun r hr => aliases r (.head hq hr)) z

theorem grounded_of_aliases {p : String} (hp : Acc (flip (Includes files includeFile)) p)
    (aliases : ∀ q, Relation.ReflTransGen (Includes files includeFile) p q →
      AliasesAcyclic files q) : Grounded files includeFile p := by
  intro x q y hx
  cases hx with
  | own => exact acc_next hp aliases x
  | included _ hq => exact acc_next (hp.inv hq) (fun r hr => aliases r (.head hq hr)) y

end Termination

section Main
variable {files : String → Option IdlFile} {includeFile : String → String → String}
variable {flags : Flags} {fuel : ℕ}

theorem outOfFuel_of_cycle {n : ProgramNode} (hn : NodeSound files includeFile n) {x : String}
    (hcycle : Relation.TransGen (Alias files n.path) x x) (bound : ℕ) {y : String}
    (hxy : Relation.ReflTransGen (Alias files n.path) x y)
    (hyx : Relation.ReflTransGen (Alias files n.path) y x) {t : ThriftType}
    (ht : (y, t) ∈ n.scope.types ∨
      ∃ info : TProgram, info.path = n.path ∧ t = .forwardTypedef info y) :
    getTrueType (nodeScopes n) bound t = .error .outOfFuel := by
  induction bound generalizing y t with
  | zero => rfl
  | succ bound ih =>
    obtain ⟨z, hyz, hxz, hzx⟩ := FiniteGraph.next_of_cycle hcycle hxy hyx
    obtain ⟨hdot, info, target, hpath, hmem, -, htarget⟩ := hn.linked y z hyz
    rcases ht with ht | ⟨info', hpath', rfl⟩
    · have heq := (Prod.mk.inj (hn.unique _ ht _ hmem hdot rfl)).2
      subst heq
      apply ih hxz hzx
      rcases htarget with rfl | htarget
      · exact .inr ⟨info, hpath, rfl⟩
      · exact .inl htarget
    · have hsome : (n.scope.types.lookup y).isSome = true :=
        List.lookup_isSome_iff.mpr ⟨_, hmem, beq_self_eq_true y⟩
      obtain ⟨t, hfound⟩ := Option.isSome_iff_exists.mp hsome
      have hown : (nodeScopes n info'.path).getType y = some t := by
        unfold nodeScopes
        rw [if_pos hpath']
        exact hfound
      simp only [getTrueType, getType, hown]
      exact ih hxy hyx (.inl (SortedMap.mem_of_lookup hfound))

theorem not_ends_of_cycle {n : ProgramNode} (hn : NodeSound files includeFile n) {x : String}
    (hcycle : Relation.TransGen (Alias files n.path) x x) :
    ∃ t ∈ programTypes n.program, ¬ Ends (nodeScopes n) t := by
  obtain ⟨y, hxy, -⟩ := FiniteGraph.next_of_cycle hcycle .refl .refl
  obtain ⟨-, info, t, -, hmem, htype, -⟩ := hn.linked x y hxy
  refine ⟨_, htype, ?_⟩
  rintro ⟨bound, hends⟩
  exact hends (outOfFuel_of_cycle hn hcycle bound .refl .refl (.inl hmem))

/-- `get_true_type` ends at every type of every program of the tree. -/
def ExpansionTerminates (root : ProgramNode) : Prop :=
  ∀ n, Within root n → ∀ t ∈ programTypes n.program, ∀ u ∈ parts t, Ends (nodeScopes n) u

theorem acc_includes {root p : String} {depth : ℕ}
    {r : ProgramNode × Option Scope × ProgramToScope}
    (h : (parse files includeFile flags fuel true depth root none []).run = some (.ok r))
    (hp : Relation.ReflTransGen (Includes files includeFile) root p) :
    Acc (flip (Includes files includeFile)) p := by
  have hkeys := mem_keys_of_parse h
  apply FiniteGraph.acc_of_acyclic (S := (keys r.2.2).toFinset)
  · intro p hp q hpq
    rw [List.mem_toFinset, hkeys] at hp ⊢
    exact hp.tail hpq
  · rw [List.mem_toFinset, hkeys]
    exact hp
  · exact fun q hq => acyclic_of_parse h q (hp.trans hq)

/-- In a program that is accepted every expansion ends exactly when no file of it has
    typedefs of names that lead from a name back to it. -/
theorem expansion_terminates_iff (files : String → Option IdlFile)
    (includeFile : String → String → String) (flags : Flags) (fuel depth : ℕ) (root : String)
    (r : ProgramNode × Option Scope × ProgramToScope)
    (accepted : (parse files includeFile flags fuel true depth root none []).run = some (.ok r)) :
    ExpansionTerminates r.1 ↔
      ∀ p, Relation.ReflTransGen (Includes files includeFile) root p → AliasesAcyclic files p := by
  obtain ⟨hroot, htree, hnodes⟩ := parse_tree accepted
  constructor
  · intro h p hp x hcycle
    obtain ⟨m, hm, rfl⟩ := hnodes p hp
    obtain ⟨t, ht, hnot⟩ := not_ends_of_cycle (htree m hm).1 hcycle
    apply hnot
    apply h m hm t ht
    cases t <;> simp [parts]
  · intro h n hn t ht u hu
    obtain ⟨hsound, hreach⟩ := htree n hn
    rw [hroot] at hreach
    have hwritten := written_parts (G := fun p =>
        Relation.ReflTransGen (Includes files includeFile) root p) (fun p q hp hq => hp.tail hq)
      ⟨n.path, hreach, hsound.types t ht⟩ u hu
    obtain ⟨p, hp, type, htype⟩ := hwritten
    have hgrounded := grounded_of_aliases (acc_includes accepted hp) fun q hq => h q (hp.trans hq)
    exact denotes_ends hsound.scopes hgrounded htype

/-- `typedef B A` before `typedef i32 B`. -/
def forwardAlias (p : String) : Option IdlFile :=
  if p = "a.thrift" then
    some { definitions :=
      [.typedef (.identifier "B") "A", .typedef (.baseType .TYPE_I32 false) "B"] }
  else none

theorem forwardAlias_terminates : ∃ r,
    (parse forwardAlias (fun _ file => file) {} 10 true 1 "a.thrift" none []).run = some (.ok r) ∧
      ExpansionTerminates r.1 := by
  obtain ⟨r, hr⟩ := accepted_of_isOk
    (x := parse forwardAlias (fun _ file => file) {} 10 true 1 "a.thrift" none [])
    (by decide +kernel)
  refine ⟨r, hr, (expansion_terminates_iff _ _ _ _ _ _ r hr).mpr fun p hp x hcycle => ?_⟩
  have hstep : ∀ q y z, Alias forwardAlias q y z → y = "A" ∧ z = "B" := by
    intro q y z h
    unfold Alias definitionsOf forwardAlias at h
    by_cases hq : q = "a.thrift" <;> simp [hq] at h
    exact ⟨h.2, h.1⟩
  obtain ⟨y, hxy, hyx⟩ := Relation.TransGen.head'_iff.mp hcycle
  obtain ⟨rfl, rfl⟩ := hstep p x y hxy
  rcases hyx.cases_head with heq | ⟨z, hz, -⟩
  · exact absurd heq (by decide)
  · exact absurd (hstep p _ z hz).1 (by decide)

/-- `typedef Foo Foo` -/
def selfAlias (p : String) : Option IdlFile :=
  if p = "a.thrift" then some { definitions := [.typedef (.identifier "Foo") "Foo"] } else none

theorem selfAlias_not_terminates : ∃ r,
    (parse selfAlias (fun _ file => file) {} 10 true 1 "a.thrift" none []).run = some (.ok r) ∧
      ¬ ExpansionTerminates r.1 := by
  obtain ⟨r, hr⟩ := accepted_of_isOk
    (x := parse selfAlias (fun _ file => file) {} 10 true 1 "a.thrift" none [])
    (by decide +kernel)
  refine ⟨r, hr, fun h => ?_⟩
  obtain ⟨-, htree, hnodes⟩ := parse_tree hr
  obtain ⟨m, hm, hpath⟩ := hnodes "a.thrift" .refl
  have hcycle : Relation.TransGen (Alias selfAlias m.path) "Foo" "Foo" := by
    rw [hpath]
    exact .single List.mem_cons_self
  obtain ⟨t, ht, hnot⟩ := not_ends_of_cycle (htree m hm).1 hcycle
  apply hnot
  apply h m hm t ht
  cases t <;> simp [parts]

end Main

end Sparsam.TypedefExpansion
