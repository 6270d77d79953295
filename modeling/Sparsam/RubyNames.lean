import Mathlib.Data.List.Forall2
import Sparsam.ProgramTree

set_option autoImplicit false

/-!
# The Ruby constants the generator defines

Enums become modules, structs, unions and exceptions classes, constants
constants, all inside the modules of the program's `rb` namespace; every name
starts with an upper-case letter.
-/
namespace Sparsam.RubyNames
open ThriftTypes ThriftScope ThriftParser IncludeProcessing

def capitalize (name : String) : String :=
  String.ofList <|
    match name.toList with
    | [] => []
    | c :: cs => c.toUpper :: cs

/-- The parts between the dots of a namespace. -/
def splitAtDots : List Char → List (List Char)
  | [] => [[]]
  | c :: cs =>
    if c = '.' then [] :: splitAtDots cs
    else
      match splitAtDots cs with
      | [] => [[c]]
      | part :: parts => (c :: part) :: parts

def namespaceParts (p : TProgram) : List String :=
  let ns := getNamespace p "rb"
  if ns = "" then [] else (splitAtDots ns.toList).map String.ofList

def rubyModules (p : TProgram) : List String := (namespaceParts p).map capitalize

/-- The constant that a definition of this name becomes. -/
def constantPath (p : TProgram) (name : String) : List String := rubyModules p ++ [capitalize name]

/-- `full_type_name` for an enum, a struct or an exception. -/
def fullTypeName (p : TProgram) (name : String) : String :=
  "::" ++ String.join ((rubyModules p).map (· ++ "::")) ++ capitalize name

/-- What `generate_enum`, `generate_struct` and `generate_xception` define. -/
def typeNames (p : Program) : List String :=
  p.enums.map TEnum.name ++ p.objects.map TStructOf.name

def constNames (p : Program) : List String := p.consts.map TConst.name

def definedPaths (n : ProgramNode) : List (List String) :=
  (typeNames n.program ++ constNames n.program).map (constantPath n.program.info)

/-- The same name but for the case of the first letter. -/
def SameUpToCase (x y : String) : Prop :=
  x.toList.head?.map Char.toUpper = y.toList.head?.map Char.toUpper ∧ x.toList.tail = y.toList.tail

theorem capitalize_eq_iff (x y : String) : capitalize x = capitalize y ↔ SameUpToCase x y := by
  unfold capitalize SameUpToCase
  rw [String.ofList_inj]
  cases x.toList <;> cases y.toList <;> simp

theorem map_capitalize_eq_iff (xs ys : List String) :
    xs.map capitalize = ys.map capitalize ↔ List.Forall₂ SameUpToCase xs ys := by
  rw [← List.forall₂_eq_eq_eq, List.forall₂_map_left_iff, List.forall₂_map_right_iff]
  have hrel : (fun x y : String => capitalize x = capitalize y) = SameUpToCase := by
    funext x y
    exact propext (capitalize_eq_iff x y)
  rw [← hrel]

def SameModules (p q : TProgram) : Prop :=
  List.Forall₂ SameUpToCase (namespaceParts p) (namespaceParts q)

theorem constantPath_eq_iff (p q : TProgram) (x y : String) :
    constantPath p x = constantPath q y ↔ SameModules p q ∧ SameUpToCase x y := by
  unfold constantPath rubyModules SameModules
  rw [← map_capitalize_eq_iff, ← capitalize_eq_iff, ← List.concat_eq_append,
    ← List.concat_eq_append, List.concat_inj]

end Sparsam.RubyNames
