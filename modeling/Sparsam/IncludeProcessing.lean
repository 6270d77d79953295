import Mathlib.Data.Finset.Basic
import Mathlib.Data.Set.Finite.Basic
import Mathlib.Logic.Relation
import Mathlib.Order.WellFounded
import Sparsam.ThriftParser

set_option autoImplicit false

/-!
# `parse` and `generate` over a graph of includes

Every include makes a program of its own, so `parse` unfolds the graph into a
tree; `program_to_scope` keeps one scope for each path and stops the recursion
at a path whose scope is known.
-/
namespace Sparsam.IncludeProcessing
open ThriftTypes ThriftScope ThriftParser

/-- A `t_program` after `parse`. `scopesBelow` is where the program pointers of the
    types in its scope lead: the scopes of the files under this one. -/
structure ProgramNode where
  program : Program
  includes : List ProgramNode
  scope : Scope
  scopesBelow : String → Option Scope

namespace ProgramNode

def path (n : ProgramNode) : String := n.program.info.path

def reach (ns : List ProgramNode) (path : String) : Option Scope :=
  ns.findSome? fun n => if path = n.path then some n.scope else n.scopesBelow path

end ProgramNode

/-- An entry of `program_to_scope`: the copied scope and where its types lead. -/
structure Known where
  scope : Scope
  below : String → Option Scope

abbrev ProgramToScope := List (String × Known)

/-- A run that stops with an error, or is cut off by the bound on its depth. -/
abbrev Parsing := ExceptT CompileError Option

def ofCompile {α : Type} (x : Compile α) : Parsing α := ExceptT.mk (some x)

def cutOff {α : Type} : Parsing α := ExceptT.mk none

def directoryName (path : String) : String :=
  if path.toList.contains '/' then
    String.ofList ((path.toList.reverse.dropWhile (· ≠ '/')).drop 1).reverse
  else "."

section Parse
variable (files : String → Option IdlFile) (includeFile : String → String → String)
variable (flags : Flags) (fuel : ℕ)

def openFile (path : String) : Compile IdlFile :=
  match files path with
  | none => failure ("Could not open input file: \"" ++ path ++ "\"")
  | some file => pure file

/-- The include pass over a file: the paths its includes resolve to, in order. -/
def scanIncludes (path : String) : Compile (List String) := do
  let file ← openFile files path
  file.definitions.forM (scanDefinition flags)
  pure ((file.includes.map (includeFile (directoryName path))).filter (· ≠ ""))

def parseDefinitions (path : String) (includes : List ProgramNode) (known : Known)
    (parent : Option Scope) : Compile (ProgramNode × Option Scope) := do
  let file ← openFile files path
  let p ← parseProgram flags (fun q => (known.below q).getD {}) fuel
    (includes.map ProgramNode.program) path file known.scope parent
  pure (⟨p.program, includes, p.scope, known.below⟩, p.parentScope)

def parseIncludes (parse : String → Option Scope → ProgramToScope →
      Parsing (ProgramNode × Option Scope × ProgramToScope)) :
    List String → Scope → ProgramToScope → Parsing (List ProgramNode × Scope × ProgramToScope)
  | [], scope, known => pure ([], scope, known)
  | path :: paths, scope, known => do
    let (node, parent, known) ← parse path (some scope) known
    let (nodes, scope, known) ← parseIncludes parse paths (parent.getD scope) known
    pure (node :: nodes, scope, known)

/-- `parse(program, parent_program)`, at most `depth` deep. -/
def parse (useCache : Bool) : ℕ → String → Option Scope → ProgramToScope →
    Parsing (ProgramNode × Option Scope × ProgramToScope)
  | 0, _, _, _ => cutOff
  | depth + 1, path, parent, known =>
    match if useCache then known.lookup path else none with
    | some found => do
      let (node, parent) ← ofCompile (parseDefinitions files flags fuel path [] found parent)
      pure (node, parent, known)
    | none => do
      let paths ← ofCompile (scanIncludes files includeFile flags path)
      let (nodes, scope, known) ← parseIncludes (parse useCache depth) paths {} known
      let entry : Known := ⟨scope, ProgramNode.reach nodes⟩
      let (node, parent) ← ofCompile (parseDefinitions files flags fuel path nodes entry parent)
      pure (node, parent, (path, entry) :: known)

end Parse

section Visits

mutual
/-- The programs that `generate` comes to while it returns, in order, and
    `generated_files` afterwards. -/
def visits (genRecurse : Bool) : ProgramNode → List String → List ProgramNode × List String
  | ⟨program, includes, scope, below⟩, generatedFiles =>
    if generatedFiles.contains program.info.path then ([], generatedFiles)
    else
      let (done, generatedFiles) :=
        if genRecurse then visitsAll genRecurse includes generatedFiles else ([], generatedFiles)
      (done ++ [⟨program, includes, scope, below⟩], program.info.path :: generatedFiles)

def visitsAll (genRecurse : Bool) :
    List ProgramNode → List String → List ProgramNode × List String
  | [], generatedFiles => ([], generatedFiles)
  | n :: ns, generatedFiles =>
    let (first, generatedFiles) := visits genRecurse n generatedFiles
    let (rest, generatedFiles) := visitsAll genRecurse ns generatedFiles
    (first ++ rest, generatedFiles)
end

end Visits

end Sparsam.IncludeProcessing
