import Mathlib.Data.List.Nodup
import Mathlib.Data.List.Perm.Basic
import Mathlib.Data.List.Perm.Subperm
import Sparsam.ThriftParser

set_option autoImplicit false

/-!
# The names of a program's definitions

The parser keeps the type names of a program apart, and its constants.
-/
namespace Sparsam.ProgramNames
open ThriftTypes ThriftScope ThriftParser

section Names
variable {flags : Flags} {scopes : String → Scope} {fuel : ℕ} {includes : List Program}

/-- What the checks of names leave of a program. -/
structure NamesApart (pass : Pass) : Prop where
  types : pass.program.typenames.Nodup
  consts : (pass.program.consts.map TConst.name).Nodup
  known : ∀ name ∈ pass.program.consts.map TConst.name, (pass.scope.constants.lookup name).isSome

theorem lookup_isSome_cons {β : Type} {es : List (String × β)} {name : String}
    (h : (es.lookup name).isSome) (e : String × β) : ((e :: es).lookup name).isSome := by
  rw [SortedMap.lookup_cons_if]
  split
  · rfl
  · exact h

theorem addConstant_known {p p' : Pass} {name x : String} {c : TConst}
    (h : addConstant p name c = .ok p') (hx : (p.scope.constants.lookup x).isSome) :
    (p'.scope.constants.lookup x).isSome := by
  rw [(scopeAddConstant_ok (addConstant_scope h)).2]
  exact lookup_isSome_cons hx _

theorem addEnumConstants_known {tenum : TEnum} {p p' : Pass} {vs : List TEnumValue} {x : String}
    (h : addEnumConstants tenum p vs = .ok p') (hx : (p.scope.constants.lookup x).isSome) :
    (p'.scope.constants.lookup x).isSome := by
  induction vs generalizing p with
  | nil =>
    rw [← Except.ok.inj h]
    exact hx
  | cons v vs ih =>
    obtain ⟨q, hq, h⟩ := bind_ok h
    exact ih h (addConstant_known hq hx)

/-- The name that an entry adds to the type names of its program. -/
def typename? : Entry → Option String
  | .const _ => none
  | .typedef name _ => some name
  | .enum e => some e.name
  | .object s => some s.name
  | .service s => some s.name

theorem typenames_add_perm (p : Program) (e : Entry) :
    (p.add e).typenames.Perm ((typename? e).toList ++ p.typenames) := by
  rw [List.perm_iff_count]
  intro name
  cases e <;>
    simp only [Program.add, Program.typenames, typename?, List.map_append, List.map_cons,
      List.map_nil, List.count_append, Option.toList_some, Option.toList_none, List.count_nil] <;>
    omega

theorem not_mem_of_isUniqueTypename {p : Program} {name : String}
    (h : isUniqueTypename p includes name = true) : name ∉ p.typenames := by
  unfold isUniqueTypename at h
  rw [Bool.and_eq_true, Bool.not_eq_true'] at h
  simpa using h.1

theorem enterScopes_typename {p p' : Pass} {e : Entry} (h : enterScopes includes p e = .ok p') :
    ∀ x ∈ typename? e, x ∉ p.program.typenames := by
  intro x hx
  cases e with
  | const c => cases hx
  | typedef name type =>
    obtain rfl := Option.some.inj hx
    exact not_mem_of_isUniqueTypename (addType_ok h).1
  | enum tenum =>
    obtain rfl := Option.some.inj hx
    obtain ⟨q, hq, h⟩ := bind_ok h
    rw [← addEnumConstants_program hq]
    exact not_mem_of_isUniqueTypename (addType_ok h).1
  | object s =>
    obtain rfl := Option.some.inj hx
    exact not_mem_of_isUniqueTypename (addType_ok h).1
  | service s =>
    obtain rfl := Option.some.inj hx
    exact not_mem_of_isUniqueTypename (addService_ok h).1

theorem enterScopes_known {p p' : Pass} {e : Entry} (h : enterScopes includes p e = .ok p')
    {x : String} (hx : (p.scope.constants.lookup x).isSome) :
    (p'.scope.constants.lookup x).isSome := by
  cases e with
  | const c => exact addConstant_known h hx
  | typedef name type =>
    rw [(addType_ok h).2.2]
    exact hx
  | enum tenum =>
    obtain ⟨q, hq, h⟩ := bind_ok h
    rw [(addType_ok h).2.2]
    exact addEnumConstants_known hq hx
  | object s =>
    rw [(addType_ok h).2.2]
    exact hx
  | service s =>
    rw [(addService_ok h).2.2]
    exact hx

theorem NamesApart.enter {p p' : Pass} {e : Entry} (h : NamesApart p)
    (henter : ThriftParser.enter includes p e = .ok p') : NamesApart p' := by
  have hprogram := enter_program henter
  obtain ⟨q, hq, henter⟩ := bind_ok henter
  have hscope : p'.scope = q.scope := by rw [← Except.ok.inj henter]
  have htypes : p'.program.typenames.Nodup := by
    rw [hprogram, (typenames_add_perm _ e).nodup_iff, List.nodup_append]
    refine ⟨?_, h.types, fun x hx y hy heq => ?_⟩
    · cases typename? e <;> simp
    · rw [Option.mem_toList] at hx
      exact enterScopes_typename hq x hx (heq ▸ hy)
  have hknown : ∀ name ∈ p.program.consts.map TConst.name,
      (p'.scope.constants.lookup name).isSome := by
    intro name hname
    rw [hscope]
    exact enterScopes_known hq (h.known name hname)
  cases e with
  | const c =>
    have hscopes := scopeAddConstant_ok (addConstant_scope hq)
    have hnames : p'.program.consts.map TConst.name =
        p.program.consts.map TConst.name ++ [c.name] := by
      rw [hprogram]
      simp [Program.add]
    refine ⟨htypes, ?_, fun name hname => ?_⟩
    · rw [hnames, List.nodup_append]
      refine ⟨h.consts, by simp, fun x hx y hy heq => ?_⟩
      rw [List.mem_singleton] at hy
      have hsome := h.known x hx
      rw [heq, hy, hscopes.1] at hsome
      cases hsome
    · rw [hnames, List.mem_append, List.mem_singleton] at hname
      rcases hname with hname | rfl
      · exact hknown name hname
      · rw [hscope, hscopes.2, SortedMap.lookup_cons_if, if_pos rfl]
        rfl
  | _ =>
    have hnames : p'.program.consts.map TConst.name = p.program.consts.map TConst.name := by
      rw [hprogram]
      rfl
    exact ⟨htypes, hnames ▸ h.consts, hnames ▸ hknown⟩

theorem namesApart_of_parse {path : String} {file : IdlFile} {scope : Scope}
    {parent : Option Scope} {pass : Pass}
    (h : parseProgram flags scopes fuel includes path file scope parent = .ok pass) :
    NamesApart pass := by
  apply definitions_invariant h
  · exact ⟨List.nodup_nil, List.nodup_nil, by simp⟩
  · exact fun d _ q q' e hq _ henter => hq.enter henter

end Names

end Sparsam.ProgramNames
