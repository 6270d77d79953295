import Sparsam.ConstantOrder
import Sparsam.FieldTables
import Sparsam.ListPairing
import Sparsam.ThriftGrammar
import Sparsam.UnionRequiredness

set_option autoImplicit false

/-!
# From the text of an interface file to the tables of its classes

The scanner, the grammar, its actions, the generator, Ruby's reader and
`CreateFieldInfoMap` in a row: what a file declares as a struct, a union or an
exception is what the table of its class holds.
-/
namespace Sparsam.SourceText
open ListPairing ThriftTypes ThriftScope ThriftParser MaximalMunch ThriftLexer PredictiveGrammar
open Annotations (quote)
open DocComments (indent)
open RubyReader (read)
open UnionRequiredness (fieldListFrom_forall₂ field_req struct_req)
open IncludesPass (SimpleBaseType TypeSyntax ConstSyntax FieldSyntax FunctionSyntax EnumSyntax
  DefinitionSyntax)
open ThriftGrammar FieldLists FieldIdentifiers SchemaLiteral SchemaEvaluation FieldsText
open ConstantOrder GeneratedText RubyEvaluation FieldInfoCache FieldTables RubyStrings

section Files

/-- `FieldType` without the annotations and the C++ types, which no type keeps. -/
def baseTypeOf : SimpleBaseType → FieldType
  | .tok_string | .tok_slist => .baseType .TYPE_STRING false
  | .tok_binary => .baseType .TYPE_STRING true
  | .tok_bool => .baseType .TYPE_BOOL false
  | .tok_byte => .baseType .TYPE_BYTE false
  | .tok_i16 => .baseType .TYPE_I16 false
  | .tok_i32 => .baseType .TYPE_I32 false
  | .tok_i64 => .baseType .TYPE_I64 false
  | .tok_double => .baseType .TYPE_DOUBLE false

def typeOf : TypeSyntax → FieldType
  | .identifier name => .identifier name
  | .baseType base _ => baseTypeOf base
  | .list elem _ _ => .list (typeOf elem)
  | .set _ elem _ => .set (typeOf elem)
  | .map _ key val _ => .map (typeOf key) (typeOf val)

mutual
def constOf : ConstSyntax → ConstValue
  | .tok_int_constant n => { valType := .CV_INTEGER, intVal := n }
  | .tok_dub_constant d => { valType := .CV_DOUBLE, doubleVal := d }
  | .tok_literal s => { valType := .CV_STRING, stringVal := s }
  | .tok_identifier name => { valType := .CV_IDENTIFIER, identifierVal := name }
  | .list elems => { valType := .CV_LIST, listVal := constsOf elems }
  | .map entries => { valType := .CV_MAP, mapVal := constEntriesOf entries }

def constsOf : List ConstSyntax → List ConstValue
  | [] => []
  | c :: cs => constOf c :: constsOf cs

def constEntriesOf : List (ConstSyntax × ConstSyntax) → List (ConstValue × ConstValue)
  | [] => []
  | (k, v) :: es => (constOf k, constOf v) :: constEntriesOf es
end

variable (order : List (ConstValue × ConstValue) → List ℕ)

/-- A constant whose maps are visited in the order of the addresses of their keys. -/
def valueOf (c : ConstSyntax) : ConstValue := visit order (constOf c)

def annotationsOf (annotations : IncludesPass.Annotations) : List (String × String) :=
  (annotations.getD []).map fun a => (a.1, a.2.getD "1")

mutual
def fieldOf : FieldSyntax → FieldDecl
  | ⟨identifier, requiredness, type, name, value, xsdAttrs, annotations⟩ =>
    { identifier, requiredness, type := typeOf type, name, value := value.map (valueOf order)
      xsdAttrs := attrsOf xsdAttrs, annotations := annotationsOf annotations }

def attrsOf : Option (List FieldSyntax) → Option (List FieldDecl)
  | none => none
  | some fields => some (fieldsOf fields)

def fieldsOf : List FieldSyntax → List FieldDecl
  | [] => []
  | f :: fs => fieldOf f :: fieldsOf fs
end

def functionOf (f : FunctionSyntax) : FunctionDecl where
  oneway := f.oneway
  returntype := f.returntype.map typeOf
  name := f.name
  arglist := fieldsOf order f.arglist
  throws := (f.throws.map (fieldsOf order)).getD []

def definitionOf : DefinitionSyntax → Definition
  | .const type name value => .const (typeOf type) name (valueOf order value)
  | .typedef type name _ => .typedef (typeOf type) name
  | .enum name values _ => .enum name (values.map fun v => (v.name, v.value))
  | .senum name _ _ => .senum name
  | .struct isUnion name fields _ => .struct isUnion name (fieldsOf order fields)
  | .xception name fields _ => .xception name (fieldsOf order fields)
  | .service name parent functions _ _ => .service name parent (functions.map (functionOf order))

def includeOf : HeaderSyntax → Option String
  | .tok_include path => some path
  | .tok_namespace _ _ | .tok_cpp_include _ => none

def namespaceOf : HeaderSyntax → Option (String × String)
  | .tok_namespace language name => some (language, name)
  | .tok_include _ | .tok_cpp_include _ => none

/-- What the actions make of a program; the documentation comes from elsewhere. -/
def fileOf (program : ProgramSyntax) : IdlFile where
  includes := program.headers.filterMap includeOf
  namespaces := program.headers.filterMap namespaceOf
  definitions := program.definitions.map (definitionOf order)

end Files

section Names

theorem isAlphanum_of_idTail {c : Char} (h : idTail c = true) : c.isAlphanum = true ∨ c = '_' := by
  simp only [idTail, letter, digit, Bool.or_eq_true, inRange_iff, beq_iff_eq] at h
  delta Char.isAlphanum Char.isAlpha Char.isUpper Char.isLower Char.isDigit
  simp only [Bool.or_eq_true, Bool.and_eq_true, decide_eq_true_eq, UInt32.le_iff_toNat_le,
    ge_iff_le]
  change ((((65 ≤ c.toNat ∧ c.toNat ≤ 90) ∨ (97 ≤ c.toNat ∧ c.toNat ≤ 122)) ∨
    (48 ≤ c.toNat ∧ c.toNat ≤ 57)) ∨ c = '_')
  simp only [Char.reduceToNat] at h
  rcases h with ((h | h) | rfl) | h
  · exact .inl (.inl (.inr h))
  · exact .inl (.inl (.inl h))
  · exact .inr rfl
  · exact .inl (.inr h)

theorem isIdentifier_of_mem {id : List Char} (h : id ∈ identifier.language) :
    IsIdentifier (String.ofList id) := by
  obtain ⟨c, cs, rfl, -⟩ := identifier_cons h
  refine ⟨by simp, fun d hd => ?_⟩
  rw [String.toList_ofList] at hd
  rcases identifier_chars h hd with hd | hd
  · rcases isAlphanum_of_idTail hd with hd | hd
    · exact .inl hd
    · exact .inr (.inl hd)
  · exact .inr (.inr hd)

end Names

section Derivations
variable {names : (α : Type) → Nonterminal α → α → List Token → Prop} {ts : List Token}

def declared : DefinitionSyntax → List FieldSyntax
  | .struct _ _ fields _ | .xception _ fields _ => fields
  | .const _ _ _ | .typedef _ _ _ | .enum _ _ _ | .senum _ _ _ | .service _ _ _ _ _ => []

def title : DefinitionSyntax → Option String
  | .struct _ name _ _ | .xception name _ _ => some name
  | .const _ _ _ | .typedef _ _ _ | .enum _ _ _ | .senum _ _ _ | .service _ _ _ _ _ => none

def isUnion : DefinitionSyntax → Bool
  | .struct isUnion _ _ _ => isUnion
  | .const _ _ _ | .typedef _ _ _ | .enum _ _ _ | .senum _ _ _ | .xception _ _ _
  | .service _ _ _ _ _ => false

theorem terminal_identifier {t : Token} (h : terminal t = .tok_identifier) :
    ∃ id, t = .tok_identifier id ∧ text t = String.ofList id := by
  cases t with
  | tok_identifier id => exact ⟨id, rfl, rfl⟩
  | _ => cases h

theorem field_name {f : FieldSyntax} (h : fieldRule.Derives terminal names f ts) :
    ∃ id, .tok_identifier id ∈ ts ∧ f.name = String.ofList id := by
  obtain ⟨p, rfl, _, _, rfl, -, _, _, rfl, -, _, _, rfl, -, _, _, rfl, ⟨t, rfl, ht, hname⟩, -⟩ := h
  obtain ⟨id, rfl, hid⟩ := terminal_identifier ht
  exact ⟨id, by simp, hname.symm.trans hid⟩

theorem annotation_key {a : String × Option String}
    (h : typeAnnotation.Derives terminal names a ts) :
    ∃ id, .tok_identifier id ∈ ts ∧ a.1 = String.ofList id := by
  obtain ⟨front, hfront, _, _, rfl, ⟨t, rfl, ht, hkey⟩, -⟩ := Rule.derives_of_left h
  obtain ⟨id, rfl, hid⟩ := terminal_identifier ht
  exact ⟨id, hfront (by simp), hkey.symm.trans hid⟩

theorem annotation_keys {annotations : IncludesPass.Annotations}
    (h : ThriftGrammar.typeAnnotations.Derives terminal names annotations ts) :
    ∀ a ∈ annotations.getD [], ∃ id, .tok_identifier id ∈ ts ∧ a.1 = String.ofList id := by
  intro a ha
  cases annotations with
  | none => cases ha
  | some as =>
    obtain ⟨part, hpart, h⟩ := Rule.derives_of_right h
    obtain ⟨inner, hinner, h⟩ := Rule.derives_of_left h
    obtain ⟨front, hfront, h⟩ := Many.of_mem h ha
    obtain ⟨id, hid, hkey⟩ := annotation_key h
    exact ⟨id, hpart (hinner (hfront hid)), hkey⟩

theorem field_keys {f : FieldSyntax} (h : fieldRule.Derives terminal names f ts) :
    ∀ a ∈ f.annotations.getD [], ∃ id, .tok_identifier id ∈ ts ∧ a.1 = String.ofList id := by
  obtain ⟨p, rfl, _, _, rfl, -, _, _, rfl, -, _, _, rfl, -, _, _, rfl, -, _, _, rfl, -, _, _, rfl,
    -, h⟩ := h
  obtain ⟨front, hfront, h⟩ := Rule.derives_of_left h
  intro a ha
  obtain ⟨id, hid, hkey⟩ := annotation_keys h a ha
  have hmem := hfront hid
  exact ⟨id, by simp [hmem], hkey⟩

theorem fields_between {open_ close : Symbol Unit} {fields : List FieldSyntax}
    (h : (open_.right (fieldList.left close)).Derives terminal names fields ts) :
    ∃ front, front ⊆ ts ∧ Many (names _ .Field) fields front := by
  obtain ⟨front, hfront, h⟩ := Rule.derives_of_right h
  obtain ⟨front', hfront', h⟩ := Rule.derives_of_left h
  exact ⟨front', List.Subset.trans hfront' hfront, h⟩

theorem struct_fields {d : DefinitionSyntax} (h : struct.Derives terminal names d ts) :
    ∃ front, front ⊆ ts ∧ Many (names _ .Field) (declared d) front := by
  obtain ⟨p, rfl, _, _, rfl, -, _, _, rfl, -, between, _, rfl, h, -⟩ := h
  obtain ⟨front, hfront, h⟩ := fields_between h
  refine ⟨front, fun t ht => ?_, h⟩
  have hmem := hfront ht
  simp [hmem]

theorem xception_fields {d : DefinitionSyntax} (h : xception.Derives terminal names d ts) :
    ∃ front, front ⊆ ts ∧ Many (names _ .Field) (declared d) front := by
  obtain ⟨p, rfl, h⟩ := h
  obtain ⟨_, hrest, _, _, rfl, -, _, _, rfl, h, -⟩ := Rule.derives_of_right h
  obtain ⟨front, hfront, h⟩ := fields_between h
  refine ⟨front, fun t ht => hrest ?_, h⟩
  have hmem := hfront ht
  simp [hmem]

theorem definition_fields {d : DefinitionSyntax} (h : definition.Derives terminal names d ts) :
    ∃ front, front ⊆ ts ∧ Many (names _ .Field) (declared d) front := by
  have hnone : ∃ front, front ⊆ ts ∧ Many (names _ .Field) [] front :=
    ⟨[], List.nil_subset _, .nil⟩
  rcases h with ⟨_, rfl, -⟩ | ⟨_, rfl, -⟩ | ⟨_, rfl, -⟩ | ⟨_, rfl, -⟩ | h | h | ⟨_, rfl, -⟩
  · exact hnone
  · exact hnone
  · exact hnone
  · exact hnone
  · exact struct_fields h
  · exact xception_fields h
  · exact hnone

theorem definition_title {d : DefinitionSyntax} (h : definition.Derives terminal names d ts)
    {name : String} (hname : title d = some name) :
    ∃ id, .tok_identifier id ∈ ts ∧ name = String.ofList id := by
  rcases h with ⟨_, rfl, -⟩ | ⟨_, rfl, -⟩ | ⟨_, rfl, -⟩ | ⟨_, rfl, -⟩ | h | h | ⟨_, rfl, -⟩
  · cases hname
  · cases hname
  · cases hname
  · cases hname
  · obtain ⟨p, rfl, _, _, rfl, -, _, _, rfl, h, -⟩ := h
    obtain ⟨front, hfront, t, rfl, ht, hid⟩ := Rule.derives_of_left h
    obtain ⟨id, rfl, htext⟩ := terminal_identifier ht
    have hmem := hfront (List.mem_singleton_self _)
    exact ⟨id, by simp [hmem], (Option.some.inj hname).symm.trans (hid.symm.trans htext)⟩
  · obtain ⟨p, rfl, h⟩ := h
    obtain ⟨rest, hrest, _, _, rfl, ⟨t, rfl, ht, hid⟩, -⟩ := Rule.derives_of_right h
    obtain ⟨id, rfl, htext⟩ := terminal_identifier ht
    exact ⟨id, hrest (by simp), (Option.some.inj hname).symm.trans (hid.symm.trans htext)⟩
  · cases hname

/-- The names of a field and of its annotations are identifiers of the text. -/
structure Spelled (f : FieldSyntax) (ts : List Token) : Prop where
  name : ∃ id, .tok_identifier id ∈ ts ∧ f.name = String.ofList id
  keys : ∀ a ∈ f.annotations.getD [], ∃ id, .tok_identifier id ∈ ts ∧ a.1 = String.ofList id

theorem Spelled.mono {f : FieldSyntax} {front : List Token} (h : Spelled f front)
    (hfront : front ⊆ ts) : Spelled f ts := by
  constructor
  · obtain ⟨id, hid, hname⟩ := h.name
    exact ⟨id, hfront hid, hname⟩
  · intro a ha
    obtain ⟨id, hid, hkey⟩ := h.keys a ha
    exact ⟨id, hfront hid, hkey⟩

/-- The words that a definition gives its class are identifiers of the text. -/
structure Titled (d : DefinitionSyntax) (ts : List Token) : Prop where
  title : ∀ name, title d = some name → ∃ id, .tok_identifier id ∈ ts ∧ name = String.ofList id
  fields : ∀ f ∈ declared d, Spelled f ts

theorem titled_of_program {atof : List Char → UInt64} {program : ProgramSyntax}
    (h : IsProgram atof program ts) {d : DefinitionSyntax} (hd : d ∈ program.definitions) :
    Titled d ts := by
  have hinput : yyinput ts ⊆ ts := (List.takeWhile_sublist _).subset
  obtain ⟨n, h⟩ := h
  cases n with
  | zero => exact h.elim
  | succ n =>
    obtain ⟨p, rfl, front, rest, htext, -, hdefinitions⟩ := h
    obtain ⟨part, hpart, hdefinition⟩ := Many.of_mem hdefinitions hd
    have htexts : part ⊆ ts := fun t ht => by
      apply hinput
      rw [htext]
      exact List.mem_append_right _ (hpart ht)
    constructor
    · intro name hname
      obtain ⟨id, hid, heq⟩ := definition_title hdefinition hname
      exact ⟨id, htexts hid, heq⟩
    · intro f hf
      obtain ⟨fields, hfields, hmany⟩ := definition_fields hdefinition
      obtain ⟨own, hown, hfield⟩ := hmany.of_mem hf
      cases n with
      | zero => exact hfield.elim
      | succ n =>
        have hspelled : Spelled f own := ⟨field_name hfield, field_keys hfield⟩
        exact hspelled.mono (List.Subset.trans hown (List.Subset.trans hfields htexts))

end Derivations

section Members
variable {flags : Flags} {scopes : String → Scope} {fuel : ℕ} {info : TProgram} {scope : Scope}

theorem field_annotations {arglist : Bool} {y y' : Int32} {d : FieldDecl} {f : TField}
    (h : field flags scopes fuel info scope arglist y d = .ok (f, y')) :
    f.annotations = mapOfEntries d.annotations := by
  obtain ⟨doc, identifier, requiredness, type, name, value, xsdAttrs, annotations⟩ := d
  unfold field at h
  obtain ⟨z, -, h⟩ := bind_ok h
  split at h
  · cases h
  · obtain ⟨u, -, h⟩ := bind_ok h
    obtain ⟨v, -, h⟩ := bind_ok h
    obtain ⟨rfl, -⟩ := Prod.mk.inj (Except.ok.inj h)
    rfl

/-- What the members of a field list have from their declarations, unions or not. -/
structure Copied (info : TProgram) (scope : Scope) (ds : List FieldDecl) (s : TStruct) : Prop where
  types : s.members.map TFieldOf.type = ds.map fun d => fieldType info scope d.type
  annotations : s.members.map TFieldOf.annotations = ds.map fun d => mapOfEntries d.annotations

theorem fieldList_copied {arglist : Bool} {ds : List FieldDecl} {s : TStruct}
    (h : fieldList flags scopes fuel info scope arglist ds = .ok s) : Copied info scope ds s := by
  have htypes := (fieldList_ok h).2.2.imp fun d f hf => hf.type
  refine ⟨map_of_forall₂ htypes, ?_⟩
  obtain ⟨⟨s', y⟩, hs, h⟩ := bind_ok h
  obtain rfl := Except.ok.inj h
  obtain ⟨fs, hfs, hall⟩ := fieldListFrom_forall₂ (fun d y f y' => field_annotations) rfl hs
  change s'.members = [] ++ fs at hfs
  rw [hfs]
  exact map_of_forall₂ hall

theorem Copied.of_members {ds : List FieldDecl} {s s' : TStruct} (h : Copied info scope ds s)
    (hsame : s'.members.map sansReq = s.members.map sansReq) : Copied info scope ds s' :=
  ⟨(map_eq_of_sansReq hsame TFieldOf.type fun _ => rfl).trans h.types,
    (map_eq_of_sansReq hsame TFieldOf.annotations fun _ => rfl).trans h.annotations⟩

theorem validate_plain {s : TStruct} (h : s.isUnion = false) : s.validateUnionMembers = .ok s := by
  unfold TStructOf.validateUnionMembers
  rw [if_neg (by simp [h])]
  rfl

/-- Whether a declaration makes an optional member; in a union any mark does. -/
def optional (isUnion : Bool) (d : FieldDecl) : Bool :=
  if isUnion then d.requiredness.isSome else d.requiredness == some .optional

theorem fieldList_optional {ds : List FieldDecl} {s : TStruct}
    (h : fieldList flags scopes fuel info scope false ds = .ok s) :
    s.members.map (fun f => decide (f.req = .T_OPTIONAL)) = ds.map (optional false) := by
  obtain ⟨⟨s', y⟩, hs, h⟩ := bind_ok h
  obtain rfl := Except.ok.inj h
  obtain ⟨fs, hfs, hall⟩ := fieldListFrom_forall₂
    (R := fun d f => f.req = fieldRequiredness false d.requiredness)
    (fun d y f y' => field_req) rfl hs
  change s'.members = [] ++ fs at hfs
  rw [hfs]
  apply map_of_forall₂
  apply hall.imp
  intro d f hf
  rw [hf, optional]
  cases d.requiredness with
  | none => rfl
  | some keyword => cases keyword <;> rfl

theorem struct_optional {isUnion : Bool} {name : String} {ds : List FieldDecl} {s : TStruct}
    (hname : name ≠ "") (h : struct flags scopes fuel info scope isUnion name ds = .ok s) :
    s.members.map (fun f => decide (f.req = .T_OPTIONAL)) = ds.map (optional isUnion) := by
  cases isUnion with
  | true =>
    apply map_of_forall₂
    apply (struct_req hname h).imp
    intro d f hf
    rw [optional, if_pos rfl, Bool.eq_iff_iff, decide_eq_true_iff, Option.isSome_iff_ne_none]
    exact hf
  | false =>
    obtain ⟨r, hr, h⟩ := bind_ok h
    obtain ⟨u, -, h⟩ := bind_ok h
    obtain ⟨t, ht, h⟩ := bind_ok h
    have hoptional := fieldList_optional hr
    rw [TStructOf.setUnion, validate_plain rfl] at ht
    obtain rfl := Except.ok.inj ht
    rw [TStructOf.setName, validate_plain rfl] at h
    obtain rfl := Except.ok.inj h
    exact hoptional

/-- What a struct, a union or an exception has from its declaration. -/
structure Made (flags : Flags) (info : TProgram) (isUnion : Bool) (title : String)
    (ds : List FieldDecl) (s : TStruct) : Prop where
  name : s.name = title
  accepted : Accepted flags ds s
  copied : ∃ scope, Copied info scope ds s
  requiredness : title ≠ "" →
    s.members.map (fun f => decide (f.req = .T_OPTIONAL)) = ds.map (optional isUnion)

theorem struct_made {isUnion : Bool} {name : String} {ds : List FieldDecl} {s : TStruct}
    (h : struct flags scopes fuel info scope isUnion name ds = .ok s) :
    Made flags info isUnion name ds s := by
  refine ⟨(struct_ok h).1, struct_accepted h, ⟨scope, ?_⟩, fun hname => struct_optional hname h⟩
  obtain ⟨r, hr, h⟩ := bind_ok h
  obtain ⟨u, -, h⟩ := bind_ok h
  obtain ⟨t, ht, h⟩ := bind_ok h
  have hunion := validateUnionMembers_sameMembers ht
  have hname := setName_sameMembers h
  exact (fieldList_copied hr).of_members (hname.members.trans hunion.members)

theorem xception_made {name : String} {ds : List FieldDecl} {s : TStruct}
    (h : xception flags scopes fuel info scope name ds = .ok s) :
    Made flags info false name ds s := by
  refine ⟨(xception_ok h).1, xception_accepted h, ⟨scope, ?_⟩, fun _ => ?_⟩
  · obtain ⟨r, hr, h⟩ := bind_ok h
    obtain ⟨u, -, h⟩ := bind_ok h
    obtain ⟨t, ht, h⟩ := bind_ok h
    obtain rfl := Except.ok.inj h
    have hcopied := (fieldList_copied hr).of_members (setName_sameMembers ht).members
    exact ⟨hcopied.types, hcopied.annotations⟩
  · obtain ⟨r, hr, h⟩ := bind_ok h
    obtain ⟨u, -, h⟩ := bind_ok h
    obtain ⟨t, ht, h⟩ := bind_ok h
    obtain rfl := Except.ok.inj h
    have hunion : ({ r with name := name } : TStruct).isUnion = false := (fieldList_ok hr).1
    have hoptional := fieldList_optional hr
    rw [TStructOf.setName, validate_plain hunion] at ht
    obtain rfl := Except.ok.inj ht
    exact hoptional

end Members

section Programs
variable {flags : Flags} {scopes : String → Scope} {fuel : ℕ} {includes : List Program}
variable {order : List (ConstValue × ConstValue) → List ℕ}

theorem elaborate_titled {info : TProgram} {scope : Scope} {d : DefinitionSyntax} {name : String}
    {e : Entry} (hname : title d = some name)
    (h : elaborate flags scopes fuel info scope (definitionOf order d) = .ok e) :
    ∃ s, e = .object s ∧ Made flags info (isUnion d) name (fieldsOf order (declared d)) s := by
  cases d with
  | struct isUnion title fields annotations =>
    obtain rfl := Option.some.inj hname
    obtain ⟨s, hs, h⟩ := bind_ok h
    exact ⟨s, (Except.ok.inj h).symm, struct_made hs⟩
  | xception title fields annotations =>
    obtain rfl := Option.some.inj hname
    obtain ⟨s, hs, h⟩ := bind_ok h
    exact ⟨s, (Except.ok.inj h).symm, xception_made hs⟩
  | _ => cases hname

theorem objects_add (p : Program) (e : Entry) : p.objects ⊆ (p.add e).objects := by
  cases e with
  | object s => exact List.subset_append_left _ _
  | _ => exact fun s hs => hs

theorem object_of_definition {ds : List DefinitionSyntax} {p p' : Pass}
    (h : (ds.map (definitionOf order)).foldlM (definition flags scopes fuel includes) p = .ok p') :
    p.program.objects ⊆ p'.program.objects ∧ ∀ d ∈ ds, ∀ name, title d = some name →
      ∃ s ∈ p'.program.objects,
        Made flags p.program.info (isUnion d) name (fieldsOf order (declared d)) s := by
  induction ds generalizing p with
  | nil =>
    obtain rfl := Except.ok.inj h
    exact ⟨List.Subset.refl _, fun d hd => absurd hd List.not_mem_nil⟩
  | cons d ds ih =>
    obtain ⟨q, hq, h⟩ := bind_ok h
    obtain ⟨e, he, hq⟩ := bind_ok hq
    have hprogram := enter_program hq
    have hinfo : q.program.info = p.program.info := by
      rw [hprogram]
      cases e <;> rfl
    obtain ⟨hgrow, hall⟩ := ih h
    rw [hinfo] at hall
    constructor
    · apply List.Subset.trans _ hgrow
      rw [hprogram]
      exact objects_add _ _
    · intro d' hd' name hname
      rcases List.mem_cons.mp hd' with rfl | hd'
      · obtain ⟨s, rfl, hs⟩ := elaborate_titled hname he
        refine ⟨s, hgrow ?_, hs⟩
        rw [hprogram]
        exact List.mem_append_right _ (List.mem_singleton_self s)
      · exact hall d' hd' name hname

end Programs

section Quotes
variable {order : List (ConstValue × ConstValue) → List ℕ}

theorem fieldsOf_eq (fs : List FieldSyntax) : fieldsOf order fs = fs.map (fieldOf order) := by
  induction fs with
  | nil => rfl
  | cons f fs ih => rw [List.map_cons, ← ih]; rfl

theorem fieldOf_name (f : FieldSyntax) : (fieldOf order f).name = f.name := by
  cases f
  rfl

theorem fieldOf_annotations (f : FieldSyntax) :
    (fieldOf order f).annotations = annotationsOf f.annotations := by
  cases f
  rfl

theorem mem_of_mapOfEntries {es : List (String × String)} {e : String × String}
    (h : e ∈ mapOfEntries es) : e ∈ es := by
  have hfold : ∀ (es m : List (String × String)),
      e ∈ es.foldl (fun m e => SortedMap.insertList e.1 e.2 m) m → e ∈ m ∨ e ∈ es := by
    intro es
    induction es with
    | nil => exact fun m h => .inl h
    | cons x es ih =>
      intro m h
      rcases ih _ h with h | h
      · rcases SortedMap.mem_insertList h with rfl | h
        · exact .inr List.mem_cons_self
        · exact .inl h
      · exact .inr (List.mem_cons_of_mem _ h)
  rcases hfold es [] h with h | h
  · cases h
  · exact h

/-- The values of the annotations that a field is given end no quotes. -/
def ValuesInside (f : FieldSyntax) : Prop :=
  ∀ a ∈ f.annotations.getD [], ∀ v ∈ a.2, Inside quote v.toList

theorem inside_word {id : List Char} (h : id ∈ identifier.language) : Inside quote id := by
  have hinside := inside_identifier (isIdentifier_of_mem h)
  rwa [String.toList_ofList] at hinside

section Members
variable {ts : List Token} {flags : Flags} {info : TProgram} {isUnion : Bool} {name : String}
  {fs : List FieldSyntax} {s : TStruct}

theorem annotations_inside (hwords : ∀ id, .tok_identifier id ∈ ts → id ∈ identifier.language)
    {f : FieldSyntax} (hf : Spelled f ts) (hvalues : ValuesInside f) :
    ∀ e ∈ annotationsOf f.annotations, Inside quote e.1.toList ∧ Inside quote e.2.toList := by
  intro e he
  obtain ⟨a, ha, rfl⟩ := List.mem_map.mp he
  obtain ⟨id, hid, hkey⟩ := hf.keys a ha
  constructor
  · change Inside quote a.1.toList
    rw [hkey, String.toList_ofList]
    exact inside_word (hwords id hid)
  · change Inside quote (a.2.getD "1").toList
    cases hvalue : a.2 with
    | none => exact inside_identifier (by decide)
    | some v => exact hvalues a ha v (by rw [hvalue]; rfl)

theorem quoted_of_made (hwords : ∀ id, .tok_identifier id ∈ ts → id ∈ identifier.language)
    (hspelled : ∀ f ∈ fs, Spelled f ts) (hvalues : ∀ f ∈ fs, ValuesInside f)
    (h : Made flags info isUnion name (fieldsOf order fs) s) :
    ∀ f ∈ s.members, Quoted (fieldArgs f) := by
  intro f hf
  obtain ⟨scope, hcopied⟩ := h.copied
  have hname := List.mem_map_of_mem (f := TFieldOf.name) hf
  have hannotations := List.mem_map_of_mem (f := TFieldOf.annotations) hf
  rw [h.accepted.names, fieldsOf_eq, List.map_map] at hname
  rw [hcopied.annotations, fieldsOf_eq, List.map_map] at hannotations
  constructor
  · obtain ⟨d, hd, heq⟩ := List.mem_map.mp hname
    obtain ⟨id, hid, hword⟩ := (hspelled d hd).name
    change Inside quote f.name.toList
    rw [← heq, Function.comp_apply, fieldOf_name, hword, String.toList_ofList]
    exact inside_word (hwords id hid)
  · rintro es hes e he
    obtain rfl : f.annotations = es := Option.some.inj hes
    obtain ⟨d, hd, heq⟩ := List.mem_map.mp hannotations
    rw [← heq, Function.comp_apply] at he
    have hmem := mem_of_mapOfEntries he
    rw [fieldOf_annotations] at hmem
    exact annotations_inside hwords (hspelled d hd) (hvalues d hd) e hmem

end Members

end Quotes

section Entries
variable {flags : Flags} {info : TProgram} {union : Bool} {name : String} {ds : List FieldDecl}
  {s : TStruct}

/-- The member that a declared field has become. -/
structure Declares (info : TProgram) (scope : Scope) (union : Bool) (e : FieldDecl × ℤ)
    (f : TField) : Prop where
  name : f.name = e.1.name
  type : f.type = fieldType info scope e.1.type
  id : wireId f = Int16.ofInt e.2
  requiredness : decide (f.req = .T_OPTIONAL) = optional union e.1

theorem ofInt_toInt (z : ℤ) : Int16.ofInt (Int32.ofInt z).toInt = Int16.ofInt z := by
  rw [← Int16.toInt_inj, Int16.toInt_ofInt, Int16.toInt_ofInt, Int32.toInt_ofInt]
  simp only [Int.bmod, Int16.size, Int32.size]
  omega

theorem declares_of_maps {scope : Scope} {ids : List ℤ} {fs : List TField}
    (hnames : fs.map TFieldOf.name = ds.map FieldDecl.name)
    (htypes : fs.map TFieldOf.type = ds.map fun d => fieldType info scope d.type)
    (hkeys : fs.map TFieldOf.key = ids.map Int32.ofInt)
    (hrequired : fs.map (fun f => decide (f.req = .T_OPTIONAL)) = ds.map (optional union)) :
    List.Forall₂ (Declares info scope union) (ds.zip ids) fs := by
  induction fs generalizing ds ids with
  | nil =>
    rw [List.map_nil, eq_comm, List.map_eq_nil_iff] at hnames
    rw [hnames]
    exact .nil
  | cons f fs ih =>
    cases ds with
    | nil => cases hnames
    | cons d ds =>
      cases ids with
      | nil => cases hkeys
      | cons z ids =>
        obtain ⟨hname, hnames⟩ := List.cons.inj hnames
        obtain ⟨htype, htypes⟩ := List.cons.inj htypes
        obtain ⟨hkey, hkeys⟩ := List.cons.inj hkeys
        obtain ⟨hreq, hrequired⟩ := List.cons.inj hrequired
        refine .cons ⟨hname, htype, ?_, hreq⟩ (ih hnames htypes hkeys hrequired)
        rw [wireId, hkey]
        exact ofInt_toInt z

/-- The entry of a declared field: its name, the type that its declaration denotes, and
    whether it may be missing. -/
structure EntryFor (scopes : String → Scope) (env : Environment) (info : TProgram)
    (scope : Scope) (union : Bool) (d : FieldDecl) (fi : FieldInfo) : Prop where
  name : fi.symName = d.name
  mirrors : Mirrors scopes env.classes (fieldType info scope d.type) fi
  requiredness : fi.isOptional = optional union d

/-- The table has the declared fields, each under its id, and nothing else. -/
structure TableFor (scopes : String → Scope) (env : Environment) (info : TProgram)
    (scope : Scope) (flags : Flags) (union : Bool) (ds : List FieldDecl) (fields : FieldInfoMap) :
    Prop where
  field : ∀ e ∈ ds.zip (fieldIds flags ds), ∃ fi, fields.find? (Int16.ofInt e.2) = some fi ∧
    EntryFor scopes env info scope union e.1 fi
  entry : ∀ x ∈ fields.entries, ∃ e ∈ ds.zip (fieldIds flags ds), x.1 = Int16.ofInt e.2 ∧
    EntryFor scopes env info scope union e.1 x.2

theorem tableFor_of_made (hname : name ≠ "") (h : Made flags info union name ds s)
    (hidentifiers : ∀ d ∈ ds, IsIdentifier d.name) {scopes : String → Scope} {env : Environment}
    {fields : FieldInfoMap} (htable : TableOf scopes env s fields) :
    ∃ scope, TableFor scopes env info scope flags union ds fields := by
  obtain ⟨scope, hcopied⟩ := h.copied
  have hall := declares_of_maps h.accepted.names hcopied.types h.accepted.keys
    (h.requiredness hname)
  have hentry : ∀ e ∈ ds.zip (fieldIds flags ds), ∀ f fi, Declares info scope union e f →
      MemberInfo scopes env f fi → EntryFor scopes env info scope union e.1 fi := by
    intro e he f fi hdeclares hinfo
    have hidentifier := hidentifiers e.1 (List.of_mem_zip he).1
    rw [← hdeclares.name] at hidentifier
    refine ⟨(memberInfo_symName hinfo hidentifier).trans hdeclares.name, ?_,
      hinfo.isOptional.trans hdeclares.requiredness⟩
    rw [← hdeclares.type]
    exact hinfo.mirrors
  refine ⟨scope, fun e he => ?_, fun x hx => ?_⟩
  · obtain ⟨f, hf, hdeclares⟩ := mem_of_forall₂ hall.flip he
    obtain ⟨fi, hfind, hinfo⟩ := htable.member f hf
    rw [hdeclares.id] at hfind
    exact ⟨fi, hfind, hentry e he f fi hdeclares hinfo⟩
  · obtain ⟨f, hf, hid, hinfo⟩ := htable.entry x hx
    obtain ⟨e, he, hdeclares⟩ := mem_of_forall₂ hall hf
    exact ⟨e, he, hid.trans hdeclares.id, hentry e he f x.2 hdeclares hinfo⟩

theorem fits_of_made (h : Made flags info union name ds s)
    (hids : ∀ z ∈ fieldIds flags ds, -2 ^ 15 ≤ z ∧ z < 2 ^ 15) : ∀ f ∈ s.members, Fits f := by
  intro f hf
  have hkey := List.mem_map_of_mem (f := TFieldOf.key) hf
  rw [h.accepted.keys] at hkey
  obtain ⟨z, hz, heq⟩ := List.mem_map.mp hkey
  obtain ⟨hlow, hhigh⟩ := hids z hz
  have htoInt : f.key.toInt = z := by
    rw [← heq, Int32.toInt_ofInt]
    simp only [Int.bmod, Int32.size]
    omega
  unfold Fits
  omega

end Entries

section Source
variable {atof : List Char → UInt64} {order : List (ConstValue × ConstValue) → List ℕ}
variable {flags : Flags} {scopes : String → Scope} {fuel : ℕ}
variable {includes : List Program} {path : String} {scope : Scope} {parent : Option Scope}
variable {input : Input} {ts : List Token} {program : ProgramSyntax} {p : Pass}

theorem isIdentifier_fieldsOf (hwords : ∀ id, .tok_identifier id ∈ ts → id ∈ identifier.language)
    {fs : List FieldSyntax} (hspelled : ∀ f ∈ fs, Spelled f ts) :
    ∀ d ∈ fieldsOf order fs, IsIdentifier d.name := by
  intro d hd
  rw [fieldsOf_eq] at hd
  obtain ⟨f, hf, rfl⟩ := List.mem_map.mp hd
  obtain ⟨id, hid, hname⟩ := (hspelled f hf).name
  rw [fieldOf_name, hname]
  exact isIdentifier_of_mem (hwords id hid)

/-- What an accepted file declares as a struct, a union or an exception, the table of its class
    has, however the generator prints it: the fields under their ids, with their names, their
    types and whether they are optional. -/
theorem table_of_source (ruby : Ruby) (scopes' : String → Scope) (fuel' depth : ℕ)
    (htokens : tokens input = .ok ts) (hprogram : IsProgram atof program ts)
    (hparse : parseProgram flags scopes fuel includes path (fileOf order program) scope parent =
      .ok p) {d : DefinitionSyntax} (hd : d ∈ program.definitions) {name : String}
    (hname : title d = some name)
    (hids : ∀ z ∈ fieldIds flags (fieldsOf order (declared d)), -2 ^ 15 ≤ z ∧ z < 2 ^ 15)
    (hvalues : ∀ f ∈ declared d, ValuesInside f) :
    ∃ s ∈ p.program.objects, s.name = name ∧ ∀ text,
      generateFieldDefnsText scopes' fuel' depth s = .ok text →
        ∃ lit, generateFieldDefns scopes' fuel' s = .ok lit ∧
          (Named lit → ClassesIn ruby lit.classes → ∃ body,
            text = indent depth ++ "FIELDS = ".toList ++ body ++ "\n\n".toList ∧
            read body = some (exprOf lit) ∧ ∀ v, ruby.evalExpr (exprOf lit) = some v →
              ∃ defs fields, v = .hash defs ∧ createFieldInfoMap defs = some fields ∧
                ∃ scope, TableFor scopes' ruby.environment p.program.info scope flags (isUnion d)
                  (fieldsOf order (declared d)) fields) := by
  have hwords : ∀ id, .tok_identifier id ∈ ts → id ∈ identifier.language :=
    fun id hid => identifier_of_tokens htokens hid
  have htitled := titled_of_program hprogram hd
  have hnonempty : name ≠ "" := by
    obtain ⟨id, hid, rfl⟩ := htitled.title name hname
    exact (isIdentifier_of_mem (hwords id hid)).1
  obtain ⟨s, hs, hmade⟩ := (object_of_definition hparse).2 d hd name hname
  refine ⟨s, hs, hmade.name, fun text htext => ?_⟩
  have hquoted := quoted_of_made hwords htitled.fields hvalues hmade
  obtain ⟨lit, hlit, hread⟩ := read_fieldsText hquoted htext
  refine ⟨lit, hlit, fun hnamed hclasses => ?_⟩
  obtain ⟨body, htext, hbody⟩ := hread hnamed
  refine ⟨body, htext, hbody, fun v hv => ?_⟩
  rw [evalExpr_exprOf lit hclasses] at hv
  obtain ⟨defs, fields, hdefs, hfields, htable⟩ :=
    tableOf_fieldDefns hmade.accepted.distinct.keys (fits_of_made hmade hids) hlit hv
  rw [← parseProgram_info hparse] at hmade
  exact ⟨defs, fields, hdefs, hfields,
    tableFor_of_made hnonempty hmade (isIdentifier_fieldsOf hwords htitled.fields) htable⟩

end Source

section Examples

theorem tokens_of_skipped {input next : Input} (h : scan input = .skipped next) :
    tokens input = tokens next := by
  rw [tokens]
  split <;> simp_all

theorem tokens_of_end {input : Input} (h : scan input = .endOfInput) : tokens input = .ok [] := by
  rw [tokens]
  split <;> simp_all

/-- `struct P { 1: P x }` without the blanks that it can do without -/
def point : Input := ⟨"struct P\x7b1:P x\x7d".toList, 1⟩

def pointTokens : List Token :=
  [.keyword .tok_struct, .tok_identifier ['P'], .char '\x7b', .tok_int_constant 1, .char ':',
    .tok_identifier ['P'], .tok_identifier ['x'], .char '\x7d']

def pointField : FieldSyntax := ⟨some 1, none, .identifier "P", "x", none, none, none⟩

def pointProgram : ProgramSyntax where
  headers := []
  definitions := [.struct false "P" [pointField] none]

theorem point_tokens : tokens point = .ok pointTokens := by
  have hscans :
      scan point = .token (.keyword .tok_struct) ⟨" P\x7b1:P x\x7d".toList, 1⟩ ∧
      scan ⟨" P\x7b1:P x\x7d".toList, 1⟩ = .skipped ⟨"P\x7b1:P x\x7d".toList, 1⟩ ∧
      scan ⟨"P\x7b1:P x\x7d".toList, 1⟩ =
        .token (.tok_identifier ['P']) ⟨"\x7b1:P x\x7d".toList, 1⟩ ∧
      scan ⟨"\x7b1:P x\x7d".toList, 1⟩ = .token (.char '\x7b') ⟨"1:P x\x7d".toList, 1⟩ ∧
      scan ⟨"1:P x\x7d".toList, 1⟩ = .token (.tok_int_constant 1) ⟨":P x\x7d".toList, 1⟩ ∧
      scan ⟨":P x\x7d".toList, 1⟩ = .token (.char ':') ⟨"P x\x7d".toList, 1⟩ ∧
      scan ⟨"P x\x7d".toList, 1⟩ = .token (.tok_identifier ['P']) ⟨" x\x7d".toList, 1⟩ ∧
      scan ⟨" x\x7d".toList, 1⟩ = .skipped ⟨"x\x7d".toList, 1⟩ ∧
      scan ⟨"x\x7d".toList, 1⟩ = .token (.tok_identifier ['x']) ⟨"\x7d".toList, 1⟩ ∧
      scan ⟨"\x7d".toList, 1⟩ = .token (.char '\x7d') ⟨[], 1⟩ := by
    decide +kernel
  obtain ⟨h1, h2, h3, h4, h5, h6, h7, h8, h9, h10⟩ := hscans
  rw [tokens_of_token h1, tokens_of_skipped h2, tokens_of_token h3, tokens_of_token h4,
    tokens_of_token h5, tokens_of_token h6, tokens_of_token h7, tokens_of_skipped h8,
    tokens_of_token h9, tokens_of_token h10, tokens_of_end rfl]
  rfl

theorem point_isProgram : IsProgram (fun _ => 0) pointProgram pointTokens :=
  ⟨3, (Grammar.parseAll_iff (grammar fun _ => 0) 3 .Program pointProgram (yyinput pointTokens)).mp
    rfl⟩

def pointProgramInfo : TProgram := ⟨"a.thrift", []⟩

/-- The field refers to the struct that is not defined yet. -/
def pointStruct : TStruct where
  program := pointProgramInfo
  name := "P"
  members := [{
      type := .forwardTypedef pointProgramInfo "P"
      name := "x"
      key := 1
      req := .T_OPT_IN_REQ_OUT }]

def pointScopes : String → Scope := fun _ => { types := [("P", .struct pointStruct)] }

def pointRuby : Ruby where
  const
    | ["Sparsam", "Types", name] => (typesConstant name).map fun t => .int t.toInt
    | ["P"] => some (.klass 8)
    | _ => none
  isUnion _ := false
  new _ _ := none
  types _ := rfl

/-- The struct from its characters to the table of `P`. -/
theorem point_table : ∃ ts program p s lit text body v, tokens point = .ok ts ∧
    IsProgram (fun _ => 0) program ts ∧
    parseProgram {} (fun _ => {}) 1 [] "a.thrift" (fileOf sourceOrder program) {} none = .ok p ∧
    s ∈ p.program.objects ∧ generateFieldDefnsText pointScopes 3 1 s = .ok text ∧
    lit.classes = [["P"]] ∧
    text = indent 1 ++ "FIELDS = ".toList ++ body ++ "\n\n".toList ∧
    read body = some (exprOf lit) ∧ pointRuby.evalExpr (exprOf lit) = some v ∧
    ∃ defs fields, v = .hash defs ∧ createFieldInfoMap defs = some fields ∧
      ∃ scope, TableFor pointScopes pointRuby.environment ⟨"a.thrift", []⟩ scope {} false
        (fieldsOf sourceOrder [pointField]) fields := by
  have hparse : ∃ p, parseProgram {} (fun _ => {}) 1 [] "a.thrift"
      (fileOf sourceOrder pointProgram) {} none = .ok p ∧
        p.program.objects = [pointStruct] ∧ p.program.info = ⟨"a.thrift", []⟩ :=
    ⟨_, rfl, rfl, rfl⟩
  obtain ⟨p, hparse, hobjects, hinfo⟩ := hparse
  obtain ⟨s, hs, -, htable⟩ := table_of_source pointRuby pointScopes 3 1 point_tokens
    point_isProgram hparse (List.mem_singleton_self _) rfl (by decide)
    (by simp [declared, ValuesInside, pointField])
  have hstruct : s = pointStruct := by
    rw [hobjects, List.mem_singleton] at hs
    exact hs
  have hlit : ∃ lit, generateFieldDefns pointScopes 3 s = .ok lit ∧
      lit.classes = [["P"]] ∧ lit.enumModules = [] ∧
      (pointRuby.evalExpr (exprOf lit)).isSome = true := by
    rw [hstruct]
    exact ⟨_, rfl, by decide +kernel, by decide +kernel, by decide +kernel⟩
  obtain ⟨lit, hlit, hclasses, henums, heval⟩ := hlit
  obtain ⟨v, hv⟩ := Option.isSome_iff_exists.mp heval
  have hok : (generateFieldDefnsText pointScopes 3 1 s).toBool = true := by
    rw [hstruct]
    decide +kernel
  cases htext : generateFieldDefnsText pointScopes 3 1 s with
  | error e =>
    rw [htext] at hok
    cases hok
  | ok text =>
    obtain ⟨lit', hlit', hread⟩ := htable text htext
    obtain rfl : lit = lit' := Except.ok.inj (hlit.symm.trans hlit')
    have hnamed : Named lit := by
      constructor
      · rw [hclasses]
        exact constantsIn_singleton.mpr (by decide)
      · rw [henums]
        exact constantsIn_nil
    have hin : ClassesIn pointRuby lit.classes := by
      intro path hpath w hw
      rw [hclasses, List.mem_singleton] at hpath
      subst hpath
      exact ⟨8, (Option.some.inj hw).symm⟩
    obtain ⟨body, htext', hbody, heval⟩ := hread hnamed hin
    rw [hinfo] at heval
    exact ⟨_, _, p, s, lit, text, body, v, point_tokens, point_isProgram, hparse, hs, htext,
      hclasses, htext', hbody, hv, heval v hv⟩

end Examples

end Sparsam.SourceText
