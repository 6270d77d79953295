import Sparsam.RubyEvaluation

set_option autoImplicit false

/-!
# The table of a generated class

The text of `FIELDS` that the compiler prints for a struct is read and evaluated
by Ruby, and `CreateFieldInfoMap` makes the table of the class from the result.
The table has the declared members under their ids, each with its type.
-/
namespace Sparsam.FieldTables
open ThriftTypes ThriftScope SchemaLiteral GeneratedText RubyReader RubyEvaluation FieldsText
open DocComments (indent)
open FieldLists SchemaEvaluation WireProtocol RubyRuntime FieldInfoCache

section Tables
variable {scopes : String → Scope} {fuel : ℕ} {env : Environment} {s : TStruct}

/-- The id of a member on the wire. -/
def wireId (f : TField) : Int16 := Int16.ofInt f.key.toInt

def Fits (f : TField) : Prop := -2 ^ 15 ≤ f.key.toInt ∧ f.key.toInt < 2 ^ 15

theorem wireId_inj {f g : TField} (hf : Fits f) (hg : Fits g) :
    wireId f = wireId g ↔ f.key = g.key := by
  obtain ⟨hf, hf'⟩ := hf
  obtain ⟨hg, hg'⟩ := hg
  unfold wireId
  rw [← Int16.toInt_inj, Int16.toInt_ofInt_of_le hf hf', Int16.toInt_ofInt_of_le hg hg',
    Int32.toInt_inj]

/-- The table has the members, each under its id, and nothing else. -/
structure TableOf (scopes : String → Scope) (env : Environment) (s : TStruct)
    (fields : FieldInfoMap) : Prop where
  member : ∀ f ∈ s.members, ∃ fi, fields.find? (wireId f) = some fi ∧ MemberInfo scopes env f fi
  entry : ∀ e ∈ fields.entries, ∃ f ∈ s.members, e.1 = wireId f ∧ MemberInfo scopes env f e.2

theorem mem_zip_left {α β : Type} {R : α → β → Prop} {as : List α} {bs : List β}
    (h : List.Forall₂ R as bs) : (∀ a ∈ as, ∃ b, (a, b) ∈ as.zip bs) ∧
      ∀ p ∈ as.zip bs, p.1 ∈ as ∧ R p.1 p.2 := by
  induction h with
  | nil => simp
  | @cons a b as bs hab _ ih =>
    rw [List.zip_cons_cons]
    constructor
    · intro c hc
      rcases List.mem_cons.mp hc with rfl | hc
      · exact ⟨b, by simp⟩
      · obtain ⟨d, hd⟩ := ih.1 c hc
        exact ⟨d, List.mem_cons_of_mem _ hd⟩
    · intro p hp
      rcases List.mem_cons.mp hp with rfl | hp
      · exact ⟨by simp, hab⟩
      · exact ⟨List.mem_cons_of_mem _ (ih.2 p hp).1, (ih.2 p hp).2⟩

theorem tableEntries_ids {fs : List TField} {fis : List FieldInfo} (h : fs.length = fis.length) :
    (tableEntries (fs.zip fis)).map Prod.fst = fs.map wireId := by
  unfold tableEntries
  rw [List.map_map]
  conv_rhs => rw [← List.map_fst_zip (Nat.le_of_eq h), List.map_map]
  rfl

theorem tableOf_fieldDefns {lit : Literal} {v : Value}
    (hkeys : (s.members.map fun f => f.key).Nodup) (hfits : ∀ f ∈ s.members, Fits f)
    (h : generateFieldDefns scopes fuel s = .ok lit) (hv : env.eval lit = some v) :
    ∃ defs fields, v = .hash defs ∧ createFieldInfoMap defs = some fields ∧
      TableOf scopes env s fields := by
  obtain ⟨defs, fis, hdefs, hinfos, -, -, htable⟩ := eval_fieldDefns hkeys h hv
  obtain ⟨hzip, hmem⟩ := mem_zip_left hinfos
  have hids : ((tableEntries (s.members.zip fis)).map Prod.fst).Nodup := by
    rw [tableEntries_ids hinfos.length_eq]
    apply List.Nodup.map_on _ (List.Nodup.of_map _ hkeys)
    intro f hf g hg heq
    exact List.inj_on_of_nodup_map hkeys hf hg ((wireId_inj (hfits f hf) (hfits g hg)).mp heq)
  refine ⟨defs, _, hdefs, htable, fun f hf => ?_, fun e he => ?_⟩
  · obtain ⟨fi, hfi⟩ := hzip f hf
    exact ⟨fi, SortedMap.find?_insertAll _ hids (wireId f, fi) (List.mem_map_of_mem hfi),
      (hmem _ hfi).2⟩
  · rw [SortedMap.mem_insertAll_iff] at he
    rcases he with ⟨before, after, heq, -⟩ | ⟨he, -⟩
    · have he : e ∈ tableEntries (s.members.zip fis) := by
        rw [heq]
        simp
      obtain ⟨p, hp, rfl⟩ := List.mem_map.mp he
      exact ⟨p.1, (hmem p hp).1, rfl, (hmem p hp).2⟩
    · exact absurd he List.not_mem_nil

end Tables

section Text
variable {scopes : String → Scope} {fuel depth : ℕ} {s : TStruct} {text : List Char}

theorem read_fieldsText (hquoted : ∀ f ∈ s.members, Quoted (fieldArgs f))
    (h : generateFieldDefnsText scopes fuel depth s = .ok text) :
    ∃ lit, generateFieldDefns scopes fuel s = .ok lit ∧ (Named lit → ∃ body,
      text = indent depth ++ "FIELDS = ".toList ++ body ++ "\n\n".toList ∧
        read body = some (exprOf lit)) := by
  have hboth : Both (fun text l => Named l → SpellsConstant depth text l)
      (generateFieldDefnsText scopes fuel depth s) (generateFieldDefns scopes fuel s) :=
    generateFieldDefnsText_spells depth hquoted
  rw [h] at hboth
  obtain ⟨lit, hlit, hspells⟩ := hboth.ok_left
  refine ⟨lit, hlit, fun hnamed => ?_⟩
  obtain ⟨body, htext, hclosed⟩ := hspells hnamed
  exact ⟨body, htext, hclosed.spells.read ((exprOf_named lit).mpr ⟨hnamed.classes, hnamed.enums⟩)⟩

/-- The printed `FIELDS`, read and evaluated by Ruby, makes a table with the declared
    members, each under its id and with its type. -/
theorem table_of_text (ruby : Ruby) (s : TStruct) (hkeys : (s.members.map fun f => f.key).Nodup)
    (hfits : ∀ f ∈ s.members, Fits f) (hquoted : ∀ f ∈ s.members, Quoted (fieldArgs f))
    (lit : Literal) (hlit : generateFieldDefns scopes fuel s = .ok lit) (hnamed : Named lit)
    (hclasses : ClassesIn ruby lit.classes)
    (h : generateFieldDefnsText scopes fuel depth s = .ok text) :
    ∃ body, text = indent depth ++ "FIELDS = ".toList ++ body ++ "\n\n".toList ∧
      read body = some (exprOf lit) ∧ ∀ v, ruby.evalExpr (exprOf lit) = some v →
        ∃ defs fields, v = .hash defs ∧ createFieldInfoMap defs = some fields ∧
          TableOf scopes ruby.environment s fields := by
  obtain ⟨lit', hlit', hread⟩ := read_fieldsText hquoted h
  obtain rfl : lit = lit' := Except.ok.inj (hlit.symm.trans hlit')
  obtain ⟨body, htext, hbody⟩ := hread hnamed
  refine ⟨body, htext, hbody, fun v hv => ?_⟩
  rw [evalExpr_exprOf lit hclasses] at hv
  exact tableOf_fieldDefns hkeys hfits hlit hv

end Text

section Examples
open Annotations RubyStrings

theorem inside_identifier {s : String} (h : IsIdentifier s) : Inside quote s.toList := by
  have hchars : ∀ c ∈ s.toList, c ≠ '\\' ∧ c ≠ quote := fun c hc => (identifier_char (h.2 c hc)).2
  revert hchars
  induction s.toList with
  | nil => exact fun _ => inside_nil
  | cons c cs ih =>
    intro hchars
    have hc := hchars c (by simp)
    exact (ih fun d hd => hchars d (by simp [hd])).cons hc.2 hc.1

/-- `struct Palette { 1: optional map<string, list<i32>> shades, 2: required Color first = 1,
    3: optional Brush brush }` -/
def palette : TStruct where
  program := ⟨"a.thrift", []⟩
  name := "Palette"
  members := [{
      type := .map (.baseType .TYPE_STRING false) (.list (.baseType .TYPE_I32 false))
      name := "shades"
      key := 1
      req := .T_OPTIONAL },
    { type := .enum ⟨⟨"a.thrift", []⟩, "Color", [⟨"RED", 1⟩]⟩
      name := "first"
      key := 2
      req := .T_REQUIRED
      value := some { valType := .CV_INTEGER, intVal := 1 } },
    { type := .struct { program := ⟨"a.thrift", []⟩, name := "Brush", members := [] }
      name := "brush"
      key := 3
      req := .T_OPTIONAL }]

/-- `Brush` is a class, and all other constants but those of `Sparsam` are the module of
    `Color`. -/
def colorRuby : Ruby where
  const
    | ["Sparsam", "Types", name] => (typesConstant name).map fun t => .int t.toInt
    | ["Brush"] => some (.klass 8)
    | _ => some (.foreign 0 "Color")
  isUnion _ := false
  new _ _ := none
  types _ := rfl

theorem palette_table : ∃ lit text body v,
    generateFieldDefnsText (fun _ => {}) 3 1 palette = .ok text ∧ lit.classes = [["Brush"]] ∧
    text = indent 1 ++ "FIELDS = ".toList ++ body ++ "\n\n".toList ∧
    read body = some (exprOf lit) ∧ colorRuby.evalExpr (exprOf lit) = some v ∧
    ∃ defs fields, v = .hash defs ∧ createFieldInfoMap defs = some fields ∧
      TableOf (fun _ => {}) colorRuby.environment palette fields := by
  have hlit : ∃ lit, generateFieldDefns (fun _ => {}) 3 palette = .ok lit ∧
      lit.classes = [["Brush"]] ∧ lit.enumModules = [["Color"]] ∧
      (colorRuby.evalExpr (exprOf lit)).isSome = true :=
    ⟨_, rfl, by decide +kernel, by decide +kernel, by decide +kernel⟩
  obtain ⟨lit, hlit, hclasses, henums, heval⟩ := hlit
  obtain ⟨v, hv⟩ := Option.isSome_iff_exists.mp heval
  have hnamed : Named lit := by
    constructor
    · rw [hclasses]
      exact constantsIn_singleton.mpr (by decide)
    · rw [henums]
      exact constantsIn_singleton.mpr (by decide)
  have hin : ClassesIn colorRuby lit.classes := by
    intro path hpath w hw
    rw [hclasses, List.mem_singleton] at hpath
    subst hpath
    exact ⟨8, (Option.some.inj hw).symm⟩
  have hquoted : ∀ f ∈ palette.members, Quoted (fieldArgs f) := by
    intro f hf
    have hident : ∀ f ∈ palette.members, IsIdentifier f.name ∧ f.annotations = [] := by decide
    obtain ⟨hname, hnone⟩ := hident f hf
    exact ⟨inside_identifier hname, by simp [fieldArgs, hnone]⟩
  have hfits : ∀ f ∈ palette.members, Fits f := by simp [palette, Fits]
  have hok : (generateFieldDefnsText (fun _ => {}) 3 1 palette).toBool = true := by decide +kernel
  cases h : generateFieldDefnsText (fun _ => {}) 3 1 palette with
  | error e =>
    rw [h] at hok
    cases hok
  | ok text =>
    obtain ⟨body, htext, hread, htable⟩ := table_of_text colorRuby palette (by decide) hfits
      hquoted lit hlit hnamed hin h
    exact ⟨lit, text, body, v, rfl, hclasses, htext, hread, hv, htable v hv⟩

end Examples

end Sparsam.FieldTables
