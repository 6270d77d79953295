import Sparsam.ListPairing
import Sparsam.SchemaEvaluation

set_option autoImplicit false

/-!
# Field ids from the source to the wire

The id of a field is a 64-bit integer in the source, 32 bits wide in `t_field`
and 16 bits wide in the field table. The check for duplicates sits between the
two narrowings.
-/
namespace Sparsam.FieldIdentifiers
open ListPairing ThriftTypes ThriftScope ThriftParser FieldLists SchemaLiteral ClassReferences
open WireProtocol RubyRuntime FieldInfoCache SchemaEvaluation

section Ids
variable (flags : Flags)

/-- The id that a declaration gives its field where the next free one is `y`, and the
    next free one after it, without a bound on either. -/
def declaredId (y : ℤ) : Option Int64 → ℤ × ℤ
  | some n =>
    if n ≤ 0 then if flags.allowNegFieldKeys then (n.toInt, n.toInt - 1) else (y, y - 1)
    else (n.toInt, y)
  | none => (y, y - 1)

mutual
def fieldId (y : ℤ) : FieldDecl → ℤ × ℤ
  | ⟨_, identifier, _, _, _, _, xsdAttrs, _⟩ =>
    let id := declaredId flags y identifier
    (id.1, attrsId id.2 xsdAttrs)

def attrsId (y : ℤ) : Option (List FieldDecl) → ℤ
  | none => y
  | some fields => (fieldIdsFrom (-1) fields).2

def fieldIdsFrom (y : ℤ) : List FieldDecl → List ℤ × ℤ
  | [] => ([], y)
  | f :: fs =>
    let id := fieldId y f
    let ids := fieldIdsFrom id.2 fs
    (id.1 :: ids.1, ids.2)
end

/-- The ids of the declared fields: as written where they are positive. -/
def fieldIds (ds : List FieldDecl) : List ℤ := (fieldIdsFrom flags (-1) ds).1

end Ids

section Keys
variable {flags : Flags} {scopes : String → Scope} {fuel : ℕ} {program : TProgram} {scope : Scope}
variable {arglist : Bool}

theorem fieldIdentifier_eq (y : ℤ) (identifier : Option Int64) :
    (fieldIdentifier flags (Int32.ofInt y) identifier).value =
        Int32.ofInt (declaredId flags y identifier).1 ∧
      (fieldIdentifier flags (Int32.ofInt y) identifier).yFieldVal =
        Int32.ofInt (declaredId flags y identifier).2 := by
  unfold fieldIdentifier declaredId
  cases identifier with
  | none => exact ⟨rfl, (Int32.ofInt_sub y 1).symm⟩
  | some n =>
    dsimp only
    split
    · split
      · refine ⟨rfl, ?_⟩
        change (n - 1).toInt32 = Int32.ofInt (n.toInt - 1)
        rw [Int32.ofInt_sub, Int64.toInt32_sub]
        rfl
      · exact ⟨rfl, (Int32.ofInt_sub y 1).symm⟩
    · exact ⟨rfl, rfl⟩

/-- The key of a field is its id in 32 bits, and so is `y_field_val` after it. -/
def FieldKeyed (flags : Flags) (scopes : String → Scope) (fuel : ℕ) (program : TProgram)
    (scope : Scope) (arglist : Bool) (d : FieldDecl) : Prop :=
  ∀ (y : ℤ) (f : TField) (y' : Int32),
    field flags scopes fuel program scope arglist (Int32.ofInt y) d = .ok (f, y') →
      f.key = Int32.ofInt (fieldId flags y d).1 ∧ y' = Int32.ofInt (fieldId flags y d).2

def ListKeyed (flags : Flags) (scopes : String → Scope) (fuel : ℕ) (program : TProgram)
    (scope : Scope) (arglist : Bool) (ds : List FieldDecl) : Prop :=
  ∀ (y : ℤ) (s s' : TStruct) (y' : Int32), s.isUnion = false →
    fieldListFrom flags scopes fuel program scope arglist s (Int32.ofInt y) ds = .ok (s', y') →
      s'.members.map TFieldOf.key =
          s.members.map TFieldOf.key ++ (fieldIdsFrom flags y ds).1.map Int32.ofInt ∧
        y' = Int32.ofInt (fieldIdsFrom flags y ds).2

theorem neg_one_eq : (-1 : Int32) = Int32.ofInt (-1) := by decide

theorem fieldListFrom_keyed (ds : List FieldDecl) :
    ListKeyed flags scopes fuel program scope arglist ds := by
  refine FieldDecl.rec_2 (motive_1 := FieldKeyed flags scopes fuel program scope arglist)
    (motive_2 := fun attrs => ∀ (y : ℤ) (y' : Int32),
      xsdAttributes flags scopes fuel program scope arglist (Int32.ofInt y) attrs = .ok y' →
        y' = Int32.ofInt (attrsId flags y attrs))
    (motive_3 := ListKeyed flags scopes fuel program scope arglist) ?_ ?_ ?_ ?_ ?_ ds
  · intro doc identifier requiredness type name value xsdAttrs annotations ih y f y' h
    obtain ⟨hvalue, hnext⟩ := @fieldIdentifier_eq flags y identifier
    unfold field at h
    obtain ⟨z, hz, h⟩ := bind_ok h
    rw [hnext] at hz
    split at h
    · cases h
    · obtain ⟨u, -, h⟩ := bind_ok h
      obtain ⟨v, -, h⟩ := bind_ok h
      obtain ⟨rfl, rfl⟩ := Prod.mk.inj (Except.ok.inj h)
      unfold fieldId
      exact ⟨hvalue, ih _ _ hz⟩
  · intro y y' h
    unfold xsdAttributes at h
    exact (Except.ok.inj h).symm
  · intro fields ih y y' h
    unfold xsdAttributes at h
    obtain ⟨⟨s, z⟩, hs, h⟩ := bind_ok h
    obtain rfl := Except.ok.inj h
    unfold attrsId
    rw [neg_one_eq] at hs
    exact (ih (-1) { program } s z rfl hs).2
  · intro y s s' y' hunion h
    unfold fieldListFrom at h
    obtain ⟨rfl, rfl⟩ := Prod.mk.inj (Except.ok.inj h)
    unfold fieldIdsFrom
    exact ⟨(List.append_nil _).symm, rfl⟩
  · intro d ds hd hds y s s' y' hunion h
    unfold fieldListFrom at h
    obtain ⟨⟨f, z⟩, hf, h⟩ := bind_ok h
    obtain ⟨t, ht, h⟩ := bind_ok h
    obtain ⟨hkey, rfl⟩ := hd y f z hf
    obtain ⟨rfl, -, -⟩ := appendField_ok hunion ht
    obtain ⟨hkeys, hnext⟩ := hds _ { s with members := s.members ++ [f] } s' y' hunion h
    unfold fieldIdsFrom
    refine ⟨?_, hnext⟩
    simp only [List.map_append, List.map_cons, List.map_nil, List.append_assoc, hkey] at hkeys
    exact hkeys

structure Distinct (s : TStruct) : Prop where
  keys : (s.members.map TFieldOf.key).Nodup
  names : (s.members.map TFieldOf.name).Nodup

theorem fieldListFrom_distinct {ds : List FieldDecl} {s s' : TStruct} {y y' : Int32}
    (hunion : s.isUnion = false) (hs : Distinct s)
    (h : fieldListFrom flags scopes fuel program scope arglist s y ds = .ok (s', y')) :
    Distinct s' := by
  induction ds generalizing s y with
  | nil =>
    unfold fieldListFrom at h
    obtain ⟨rfl, -⟩ := Prod.mk.inj (Except.ok.inj h)
    exact hs
  | cons d ds ih =>
    unfold fieldListFrom at h
    obtain ⟨⟨f, z⟩, -, h⟩ := bind_ok h
    obtain ⟨t, ht, h⟩ := bind_ok h
    obtain ⟨rfl, hkey, hname⟩ := appendField_ok hunion ht
    refine @ih { s with members := s.members ++ [f] } z hunion ⟨?_, ?_⟩ h
    · have hfresh : ∀ k ∈ s.members.map TFieldOf.key, ∀ k' ∈ [f.key], k ≠ k' := by
        intro k hk k' hk'
        obtain ⟨g, hg, rfl⟩ := List.mem_map.mp hk
        rw [List.mem_singleton.mp hk']
        exact hkey g hg
      rw [List.map_append]
      exact List.nodup_append.mpr ⟨hs.keys, List.nodup_singleton _, hfresh⟩
    · have hfresh : ∀ n ∈ s.members.map TFieldOf.name, ∀ n' ∈ [f.name], n ≠ n' := by
        intro n hn n' hn'
        obtain ⟨g, hg, rfl⟩ := List.mem_map.mp hn
        rw [List.mem_singleton.mp hn']
        exact hname g hg
      rw [List.map_append]
      exact List.nodup_append.mpr ⟨hs.names, List.nodup_singleton _, hfresh⟩

theorem map_eq_of_sansReq {fs gs : List TField} (h : gs.map sansReq = fs.map sansReq) {α : Type}
    (g : TField → α) (hg : ∀ f, g (sansReq f) = g f) : gs.map g = fs.map g := by
  have hmap := congrArg (List.map g) h
  rw [List.map_map, List.map_map] at hmap
  have heq : g ∘ sansReq = g := funext hg
  rwa [heq] at hmap

structure Accepted (flags : Flags) (ds : List FieldDecl) (s : TStruct) : Prop where
  keys : s.members.map TFieldOf.key = (fieldIds flags ds).map Int32.ofInt
  names : s.members.map TFieldOf.name = ds.map FieldDecl.name
  distinct : Distinct s

theorem names_of_fields {ds : List FieldDecl} {fs : List TField}
    (h : List.Forall₂ (FieldOf program scope) ds fs) :
    fs.map TFieldOf.name = ds.map FieldDecl.name := by
  induction h with
  | nil => rfl
  | cons hd _ ih => rw [List.map_cons, List.map_cons, hd.name, ih]

theorem fieldList_accepted {ds : List FieldDecl} {s : TStruct}
    (h : fieldList flags scopes fuel program scope arglist ds = .ok s) : Accepted flags ds s := by
  have hnames : s.members.map TFieldOf.name = ds.map FieldDecl.name :=
    names_of_fields (fieldList_ok h).2.2
  obtain ⟨⟨s', y⟩, hs, h⟩ := bind_ok h
  obtain rfl := Except.ok.inj h
  refine ⟨?_, hnames, @fieldListFrom_distinct _ _ _ _ _ _ _ { program } _ _ _ rfl ⟨.nil, .nil⟩ hs⟩
  rw [neg_one_eq] at hs
  exact (fieldListFrom_keyed ds (-1) { program } s' y rfl hs).1

theorem Accepted.of_members {ds : List FieldDecl} {s s' : TStruct} (h : Accepted flags ds s)
    (hsame : s'.members.map sansReq = s.members.map sansReq) : Accepted flags ds s' := by
  have hkeys := map_eq_of_sansReq hsame TFieldOf.key fun _ => rfl
  have hnames := map_eq_of_sansReq hsame TFieldOf.name fun _ => rfl
  exact ⟨hkeys.trans h.keys, hnames.trans h.names, hkeys ▸ h.distinct.keys,
    hnames ▸ h.distinct.names⟩

theorem struct_accepted {isUnion : Bool} {name : String} {ds : List FieldDecl} {s : TStruct}
    (h : struct flags scopes fuel program scope isUnion name ds = .ok s) : Accepted flags ds s := by
  obtain ⟨r, hr, h⟩ := bind_ok h
  obtain ⟨u, -, h⟩ := bind_ok h
  obtain ⟨t, ht, h⟩ := bind_ok h
  have hunion := validateUnionMembers_sameMembers ht
  have hname := setName_sameMembers h
  exact (fieldList_accepted hr).of_members (hname.members.trans hunion.members)

theorem xception_accepted {name : String} {ds : List FieldDecl} {s : TStruct}
    (h : xception flags scopes fuel program scope name ds = .ok s) : Accepted flags ds s := by
  obtain ⟨r, hr, h⟩ := bind_ok h
  obtain ⟨u, -, h⟩ := bind_ok h
  obtain ⟨t, ht, h⟩ := bind_ok h
  obtain rfl := Except.ok.inj h
  have hname := setName_sameMembers ht
  have haccepted := (fieldList_accepted hr).of_members hname.members
  exact ⟨haccepted.keys, haccepted.names, haccepted.distinct.keys, haccepted.distinct.names⟩

end Keys

/-- Every declared field has an entry of its own in the table, and the entry stands
    under the field's id where a positive one is declared. -/
structure IdsSurvive (ds : List FieldDecl) (defs : List (Value × Value)) (m : FieldInfoMap) :
    Prop where
  declared : ∀ e ∈ ds.zip defs, ∃ entry ∈ m.entries, createFieldInfo e.2.2 = some entry.2 ∧
    ∀ n, e.1.identifier = some n → 0 < n → entry.1.toInt = n.toInt
  own : m.entries.length = ds.length

/-- The positive ids fit 16 bits, and no two of the fields' ids agree in their last 16. -/
structure FitIds (flags : Flags) (ds : List FieldDecl) : Prop where
  positive : ∀ d ∈ ds, ∀ n, d.identifier = some n → 0 < n → n.toInt < 2 ^ 15
  apart : (fieldIds flags ds).Pairwise fun a b => a % 2 ^ 16 ≠ b % 2 ^ 16

section Table
variable {flags : Flags} {scopes : String → Scope} {fuel : ℕ} {program : TProgram} {scope : Scope}

theorem ofInt16_eq_iff (a b : ℤ) :
    Int16.ofInt (Int32.ofInt a).toInt = Int16.ofInt (Int32.ofInt b).toInt ↔
      a % 2 ^ 16 = b % 2 ^ 16 := by
  rw [← Int16.toInt_inj, Int16.toInt_ofInt, Int16.toInt_ofInt, Int32.toInt_ofInt, Int32.toInt_ofInt]
  simp only [Int.bmod, Int16.size, Int32.size]
  omega

theorem toInt_ofInt16 {n : Int64} (hpos : 0 < n) (h : n.toInt < 2 ^ 15) :
    (Int16.ofInt (Int32.ofInt n.toInt).toInt).toInt = n.toInt := by
  have hnonneg : 0 < n.toInt := Int64.lt_iff_toInt_lt.mp hpos
  rw [Int16.toInt_ofInt, Int32.toInt_ofInt]
  simp only [Int.bmod, Int16.size, Int32.size]
  omega

theorem fieldIds_positive (ds : List FieldDecl) : ∀ y : ℤ,
    List.Forall₂ (fun d z => ∀ n, d.identifier = some n → 0 < n → z = n.toInt) ds
      (fieldIdsFrom flags y ds).1 := by
  induction ds with
  | nil => exact fun y => .nil
  | cons d ds ih =>
    intro y
    unfold fieldIdsFrom
    refine .cons (fun n hn hpos => ?_) (ih _)
    obtain ⟨doc, identifier, requiredness, type, name, value, xsdAttrs, annotations⟩ := d
    obtain rfl : identifier = some n := hn
    unfold fieldId declaredId
    simp [Int64.not_le.mpr hpos]

theorem members_positive {ds : List FieldDecl} {s : TStruct} (h : Accepted flags ds s) :
    List.Forall₂ (fun (d : FieldDecl) (f : TField) =>
      ∀ n, d.identifier = some n → 0 < n → f.key = Int32.ofInt n.toInt) ds s.members := by
  have hids : List.Forall₂ (fun (d : FieldDecl) (k : Int32) =>
      ∀ n, d.identifier = some n → 0 < n → k = Int32.ofInt n.toInt) ds
      ((fieldIds flags ds).map Int32.ofInt) := by
    rw [List.forall₂_map_right_iff]
    exact (fieldIds_positive ds (-1)).imp fun d z hz n hn hpos => congrArg _ (hz n hn hpos)
  rw [← h.keys, List.forall₂_map_right_iff] at hids
  exact hids

theorem tableEntries_keys {ds : List FieldDecl} {s : TStruct} {fis : List FieldInfo}
    (h : Accepted flags ds s) (hlength : s.members.length = fis.length) :
    (tableEntries (s.members.zip fis)).map Prod.fst =
      (fieldIds flags ds).map fun z => Int16.ofInt (Int32.ofInt z).toInt := by
  have hkeys := congrArg (List.map fun k : Int32 => Int16.ofInt k.toInt) h.keys
  rw [List.map_map, List.map_map] at hkeys
  refine Eq.trans ?_ hkeys
  unfold tableEntries
  rw [List.map_map]
  have hzip := congrArg (List.map fun f : TField => Int16.ofInt f.key.toInt)
    (List.map_fst_zip (Nat.le_of_eq hlength))
  rw [List.map_map] at hzip
  exact hzip

end Table

section Examples

def twoFields (a b : Int64) : List FieldDecl :=
  [{ identifier := some a, type := .baseType .TYPE_I32 false, name := "a" },
    { identifier := some b, type := .baseType .TYPE_I32 false, name := "b" }]

/-- Nothing but `Sparsam` itself is loaded. -/
def bareEnvironment : Environment where
  classes _ := none
  enumModules _ := none
  isUnion _ := false
  double _ := none
  new _ _ := none

structure Loads (ds : List FieldDecl) (defs : List (Value × Value)) (m : FieldInfoMap)
    (s : TStruct) (lit : Literal) : Prop where
  accepted : struct {} (fun _ => {}) 1 ⟨"a.thrift", []⟩ {} false "S" ds = .ok s
  generated : generateFieldDefns (fun _ => {}) 1 s = .ok lit
  evaluated : bareEnvironment.eval lit = some (.hash defs)
  table : createFieldInfoMap defs = some m

def tableSize (ds : List FieldDecl) : Option ℕ :=
  match struct {} (fun _ => {}) 1 ⟨"a.thrift", []⟩ {} false "S" ds with
  | .error _ => none
  | .ok s =>
    match generateFieldDefns (fun _ => {}) 1 s with
    | .error _ => none
    | .ok lit =>
      match bareEnvironment.eval lit with
      | some (.hash defs) => (createFieldInfoMap defs).map fun m => m.entries.length
      | _ => none

theorem loads_of_tableSize {ds : List FieldDecl} {n : ℕ} (h : tableSize ds = some n) :
    ∃ defs m s lit, Loads ds defs m s lit ∧ m.entries.length = n := by
  unfold tableSize at h
  split at h
  · cases h
  rename_i s hs
  split at h
  · cases h
  rename_i lit hlit
  split at h
  · rename_i defs hdefs
    obtain ⟨m, hm, rfl⟩ := Option.map_eq_some_iff.mp h
    exact ⟨defs, m, s, lit, ⟨hs, hlit, hdefs, hm⟩, rfl⟩
  · cases h

end Examples

end Sparsam.FieldIdentifiers
