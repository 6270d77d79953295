import Sparsam.WireCompatibility

set_option autoImplicit false

/-!
# Messages of the declared types

`Message` says what the interface file declares about a value on the wire. The
loaded classes write nothing else, and read every such message; what they have
read of a message without a missing member, they can write again.
-/
namespace Sparsam.IdlMessages
open ThriftTypes ThriftScope ThriftParser ClassReferences SchemaEvaluation FieldTables
open WireProtocol RubyRuntime FieldInfoCache ObjectMethods ExceptionState ObjectAgreement
open SerializerConformance SerializerWire SerializerWrite SerializerRead DecoderFraming
open DecoderTyping DecodedValue SchemaEvolution
open SerializerRoundTrip WireCompatibility

/-- The type on the wire of a type that is no typedef. -/
def ttypeOf : ThriftType → Option TType
  | .baseType .TYPE_VOID _ => none
  | .baseType b _ => some (baseTType b)
  | .enum _ => some .I32
  | .struct _ => some .STRUCT
  | .list _ => some .LIST
  | .set _ => some .SET
  | .map _ _ => some .MAP
  | .typedef _ _ _ | .forwardTypedef _ _ => none

def OnWire (scopes : String → Scope) (t : ThriftType) (et : TType) : Prop :=
  ∃ u, Expands scopes t u ∧ ttypeOf u = some et

/-- The values on the wire of a declared type; in a `full` one no struct misses a
    member that is not optional. -/
inductive Message (scopes : String → Scope) (full : Prop) : ThriftType → WireValue → Prop
  | bool {t : ThriftType} {bin : Bool} (h : Expands scopes t (.baseType .TYPE_BOOL bin))
      (b : Bool) : Message scopes full t (.bool b)
  | byte {t : ThriftType} {bin : Bool} (h : Expands scopes t (.baseType .TYPE_BYTE bin))
      (n : Int8) : Message scopes full t (.byte n)
  | i16 {t : ThriftType} {bin : Bool} (h : Expands scopes t (.baseType .TYPE_I16 bin)) (n : Int16) :
      Message scopes full t (.i16 n)
  | i32 {t : ThriftType} {bin : Bool} (h : Expands scopes t (.baseType .TYPE_I32 bin)) (n : Int32) :
      Message scopes full t (.i32 n)
  | i64 {t : ThriftType} {bin : Bool} (h : Expands scopes t (.baseType .TYPE_I64 bin)) (n : Int64) :
      Message scopes full t (.i64 n)
  | double {t : ThriftType} {bin : Bool} (h : Expands scopes t (.baseType .TYPE_DOUBLE bin))
      (bits : UInt64) : Message scopes full t (.double bits)
  | string {t : ThriftType} {bin : Bool} (h : Expands scopes t (.baseType .TYPE_STRING bin))
      (isBinary : Bool) (bytes : List UInt8) : Message scopes full t (.string isBinary bytes)
  | enum {t : ThriftType} {e : TEnum} (h : Expands scopes t (.enum e)) (n : Int32) :
      Message scopes full t (.i32 n)
  | list {t e : ThriftType} {et : TType} {ws : List WireValue} (h : Expands scopes t (.list e))
      (type : OnWire scopes e et) (elems : ∀ w ∈ ws, Message scopes full e w) :
      Message scopes full t (.list et ws)
  | set {t e : ThriftType} {et : TType} {ws : List WireValue} (h : Expands scopes t (.set e))
      (type : OnWire scopes e et) (elems : ∀ w ∈ ws, Message scopes full e w) :
      Message scopes full t (.set et ws)
  | map {t k v : ThriftType} {kt vt : TType} {kvs : List (WireValue × WireValue)}
      (h : Expands scopes t (.map k v)) (keys : ∀ kv ∈ kvs, Message scopes full k kv.1)
      (values : ∀ kv ∈ kvs, Message scopes full v kv.2) : Message scopes full t (.map kt vt kvs)
  | struct {t : ThriftType} {s : TStruct} {fs : List (Int16 × WireValue)}
      (h : Expands scopes t (.struct s)) (member : Int16 → TField)
      (known : ∀ f ∈ fs, member f.1 ∈ s.members ∧ wireId (member f.1) = f.1)
      (typed : ∀ f ∈ fs, Message scopes full (member f.1).type f.2)
      (single : s.isUnion = true → fs.length ≤ 1)
      (complete : full → ∀ m ∈ s.members, m.req ≠ .T_OPTIONAL → wireId m ∈ fs.map Prod.fst) :
      Message scopes full t (.struct fs)

/-- The schema has the classes of these definitions, and a member's type refers to
    no others. -/
structure Implements (scopes : String → Scope) (env : Environment) (sch : Schema)
    (defs : TStruct → Prop) : Prop where
  table : ∀ s, defs s → ∀ k, env.classes (classPath s) = some k → ∃ fields,
    sch.fieldInfoMap k = some fields ∧ TableOf scopes env s fields ∧ sch.isUnion k = s.isUnion
  closed : ∀ s, defs s → ∀ f ∈ s.members, ∀ t, TypeRefers scopes f.type t → defs t
  tag : ∀ s, defs s → s.isUnion = true → ∀ f ∈ s.members,
    IsIdentifier f.name ∧ f.name ≠ "setfield"

section Messages
variable {scopes : String → Scope} {env : Environment} {sch : Schema} {defs : TStruct → Prop}
  {full : Prop} {t : ThriftType} {fi : FieldInfo}

/-- The definitions that the type refers to are among these. -/
def Within (scopes : String → Scope) (defs : TStruct → Prop) (t : ThriftType) : Prop :=
  ∀ s, TypeRefers scopes t s → defs s

theorem onWire_mirrors (h : Mirrors scopes env.classes t fi) : OnWire scopes t fi.ftype := by
  cases h with
  | @base _ _ b bin h hvoid leaf =>
    rw [leaf.ftype]
    refine ⟨_, h, ?_⟩
    cases b <;> first | rfl | exact absurd rfl hvoid
  | enum h leaf =>
    rw [leaf.ftype]
    exact ⟨_, h, rfl⟩
  | struct h ftype =>
    rw [ftype]
    exact ⟨_, h, rfl⟩
  | list h ftype =>
    rw [ftype]
    exact ⟨_, h, rfl⟩
  | set h ftype =>
    rw [ftype]
    exact ⟨_, h, rfl⟩
  | map h ftype =>
    rw [ftype]
    exact ⟨_, h, rfl⟩

theorem OnWire.unique {et et' : TType} (h : OnWire scopes t et) (h' : OnWire scopes t et') :
    et = et' := by
  obtain ⟨u, hu, het⟩ := h
  obtain ⟨u', hu', het'⟩ := h'
  obtain rfl := hu.unique hu'
  exact Option.some.inj (het.symm.trans het')

theorem Message.onWire {w : WireValue} (h : Message scopes full t w) : OnWire scopes t w.type := by
  cases h with
  | bool h | byte h | i16 h | i32 h | i64 h | double h | string h | enum h | list h | set h | map h
  | struct h => exact ⟨_, h, rfl⟩

theorem Message.type {w : WireValue} (h : Message scopes full t w)
    (hm : Mirrors scopes env.classes t fi) : w.type = fi.ftype :=
  h.onWire.unique (onWire_mirrors hm)

end Messages

section Written
variable {scopes : String → Scope} {env : Environment} {sch : Schema} {defs : TStruct → Prop}
  {full : Prop}

theorem message_int {t : ThriftType} {fi : FieldInfo} {n : ℤ} (hm : Mirrors scopes env.classes t fi)
    (range : inWidth fi.ftype n = true) : Message scopes full t (wireOf sch fi (.int n)) := by
  unfold wireOf
  cases hm with
  | @base _ _ b bin h hvoid leaf =>
    have ht := leaf.ftype
    cases b with
    | TYPE_BYTE =>
      rw [ht]
      exact .byte h _
    | TYPE_I16 =>
      rw [ht]
      exact .i16 h _
    | TYPE_I32 =>
      rw [ht]
      exact .i32 h _
    | TYPE_I64 =>
      rw [ht]
      exact .i64 h _
    | TYPE_VOID | TYPE_BOOL | TYPE_DOUBLE | TYPE_STRING => simp [ht, baseTType, inWidth] at range
  | enum h leaf =>
    rw [leaf.ftype]
    exact .enum h _
  | struct h ftype | list h ftype | set h ftype | map h ftype => simp [ftype, inWidth] at range

theorem base_of_ftype {t : ThriftType} {fi : FieldInfo} {b : TBase}
    (hm : Mirrors scopes env.classes t fi)
    (hb : b = .TYPE_BOOL ∨ b = .TYPE_DOUBLE ∨ b = .TYPE_STRING)
    (h : fi.ftype = baseTType b) : ∃ bin, Expands scopes t (.baseType b bin) := by
  cases hm with
  | @base _ _ b' bin h' hvoid leaf =>
    rw [leaf.ftype] at h
    have heq : b' = b := by
      rcases hb with rfl | rfl | rfl <;> cases b' <;> simp [baseTType] at h ⊢
    rw [heq] at h'
    exact ⟨bin, h'⟩
  | enum h' leaf =>
    rw [leaf.ftype] at h
    rcases hb with rfl | rfl | rfl <;> cases h
  | struct h' ftype | list h' ftype | set h' ftype | map h' ftype =>
    rw [ftype] at h
    rcases hb with rfl | rfl | rfl <;> cases h

theorem baseTType_plain (b : TBase) : baseTType b ∉ [TType.STRUCT, .LIST, .SET, .MAP] := by
  cases b <;> decide

theorem mirrors_list {t : ThriftType} {fi : FieldInfo} (hm : Mirrors scopes env.classes t fi)
    (type : fi.ftype = .LIST) : ∃ u e, Expands scopes t (.list u) ∧ fi.elementType = some e ∧
      Mirrors scopes env.classes u e := by
  cases hm with
  | list h _ _ _ element _ elem => exact ⟨_, _, h, element, elem⟩
  | @base _ _ b _ h hvoid leaf =>
    rw [leaf.ftype] at type
    exact absurd type (fun heq => baseTType_plain b (by simp [heq]))
  | enum h leaf =>
    rw [leaf.ftype] at type
    cases type
  | struct h ftype | set h ftype | map h ftype =>
    rw [ftype] at type
    cases type

theorem mirrors_set {t : ThriftType} {fi : FieldInfo} (hm : Mirrors scopes env.classes t fi)
    (type : fi.ftype = .SET) : ∃ u e, Expands scopes t (.set u) ∧ fi.elementType = some e ∧
      Mirrors scopes env.classes u e := by
  cases hm with
  | set h _ _ _ element _ elem => exact ⟨_, _, h, element, elem⟩
  | @base _ _ b _ h hvoid leaf =>
    rw [leaf.ftype] at type
    exact absurd type (fun heq => baseTType_plain b (by simp [heq]))
  | enum h leaf =>
    rw [leaf.ftype] at type
    cases type
  | struct h ftype | list h ftype | map h ftype =>
    rw [ftype] at type
    cases type

theorem mirrors_map {t : ThriftType} {fi : FieldInfo} (hm : Mirrors scopes env.classes t fi)
    (type : fi.ftype = .MAP) : ∃ k v ki vi, Expands scopes t (.map k v) ∧ fi.keyType = some ki ∧
      fi.elementType = some vi ∧ Mirrors scopes env.classes k ki ∧
      Mirrors scopes env.classes v vi := by
  cases hm with
  | map h _ _ _ element key keyElem elem => exact ⟨_, _, _, _, h, key, element, keyElem, elem⟩
  | @base _ _ b _ h hvoid leaf =>
    rw [leaf.ftype] at type
    exact absurd type (fun heq => baseTType_plain b (by simp [heq]))
  | enum h leaf =>
    rw [leaf.ftype] at type
    cases type
  | struct h ftype | list h ftype | set h ftype =>
    rw [ftype] at type
    cases type

theorem mirrors_struct {t : ThriftType} {fi : FieldInfo} (hm : Mirrors scopes env.classes t fi)
    (type : fi.ftype = .STRUCT) : ∃ s, Expands scopes t (.struct s) ∧
      env.classes (classPath s) = some fi.klass := by
  cases hm with
  | struct h _ klass => exact ⟨_, h, klass⟩
  | @base _ _ b _ h hvoid leaf =>
    rw [leaf.ftype] at type
    exact absurd type (fun heq => baseTType_plain b (by simp [heq]))
  | enum h leaf =>
    rw [leaf.ftype] at type
    cases type
  | list h ftype | set h ftype | map h ftype =>
    rw [ftype] at type
    cases type

def memberAt (s : TStruct) (id : Int16) : TField :=
  (s.members.find? fun f => wireId f == id).getD ⟨.baseType .TYPE_VOID false, "", 0, .T_OPTIONAL,
    none, [], none⟩

theorem memberAt_mem {s : TStruct} {f : TField} (h : f ∈ s.members) :
    memberAt s (wireId f) ∈ s.members ∧ wireId (memberAt s (wireId f)) = wireId f := by
  unfold memberAt
  cases hfind : s.members.find? fun g => wireId g == wireId f with
  | none => exact absurd (List.find?_eq_none.mp hfind f h) (by simp)
  | some g => exact ⟨List.mem_of_find?_eq_some hfind, by simpa using List.find?_some hfind⟩

theorem memberInfo_at {s : TStruct} {fields : FieldInfoMap} (h : TableOf scopes env s fields)
    {f : TField} (hf : f ∈ s.members) {e : FieldInfo} (he : fields.find? (wireId f) = some e) :
    MemberInfo scopes env f e := by
  obtain ⟨fi, hfi, hinfo⟩ := h.member f hf
  obtain rfl : e = fi := Option.some.inj (he.symm.trans hfi)
  exact hinfo

/-- What is written of the value is a message of its type. -/
def Messaged (scopes : String → Scope) (env : Environment) (sch : Schema)
    (defs : TStruct → Prop) (full : Prop) (v : Value) : Prop :=
  ∀ (t : ThriftType) (fi : FieldInfo), Mirrors scopes env.classes t fi → Within scopes defs t →
    Conforms sch fi v → Ordinary sch fi v → Message scopes full t (wireOf sch fi v)

theorem mem_wireIvars {fields : FieldInfoMap} {ivars : List (ID × Value)} {f : Int16 × WireValue} :
    f ∈ (fields.entries.filterMap fun e => wireIvar sch e ivars) ↔
      ∃ e ∈ fields.entries, ivarGet ivars e.2.ivarName ≠ .nil ∧
        f = (e.1, wireOf sch e.2 (ivarGet ivars e.2.ivarName)) := by
  rw [List.mem_filterMap]
  apply exists_congr
  intro e
  rw [wireIvar_eq]
  apply and_congr_right
  intro _
  split
  · rename_i hnil
    simp [(Value.isNil_eq_true _).mp hnil]
  · rename_i hnil
    rw [Value.isNil_eq_true] at hnil
    simp [hnil, eq_comm]

theorem ordinary_fields {fi : FieldInfo} {oid : ℕ} {klass : VALUE} {eigen : Bool}
    {ivars : List (ID × Value)} {fields : FieldInfoMap}
    (ho : Ordinary sch fi (.obj oid klass eigen ivars))
    (table : sch.fieldInfoMap fi.klass = some fields) :
    (∀ e ∈ fields.entries, ivarGet ivars e.2.ivarName ≠ .nil →
      Ordinary sch e.2 (ivarGet ivars e.2.ivarName)) ∧
    (sch.isUnion fi.klass = true →
      (fields.entries.filterMap fun e => wireIvar sch e ivars).length ≤ 1) := by
  cases ho with
  | struct _ _ _ _ _ fields₁ table₁ isStruct held =>
    obtain rfl : fields = fields₁ := Option.some.inj (table.symm.trans table₁)
    exact ⟨held, fun hunion => absurd (hunion.symm.trans isStruct) (by simp)⟩
  | unset _ _ _ _ _ fields₁ table₁ isUnion tag unset =>
    obtain rfl : fields = fields₁ := Option.some.inj (table.symm.trans table₁)
    refine ⟨fun e he hne => absurd (unset e he) hne, fun _ => ?_⟩
    have hnone : (fields.entries.filterMap fun e => wireIvar sch e ivars) = [] := by
      rw [List.eq_nil_iff_forall_not_mem]
      intro f hf
      obtain ⟨e, he, hne, -⟩ := mem_wireIvars.mp hf
      exact hne (unset e he)
    simp [hnone]
  | union _ _ _ _ _ fields₁ e table₁ isUnion member name tag value only held =>
    obtain rfl : fields = fields₁ := Option.some.inj (table.symm.trans table₁)
    have hone : ∀ e' ∈ fields.entries, ivarGet ivars e'.2.ivarName ≠ .nil → e' = e := by
      intro e' he' hne
      by_contra hother
      exact hne (only e' he' hother)
    refine ⟨fun e' he' hne => ?_, fun _ => ?_⟩
    · rw [hone e' he' hne]
      exact held
    · rw [filterMap_eq_singleton (List.Nodup.of_map _ (entries_nodup fields)) member
        (y := (e.1, wireOf sch e.2 (ivarGet ivars e.2.ivarName)))]
      · simp
      · rw [wireIvar_eq, if_neg (by rwa [Value.isNil_eq_true])]
      · intro e' he' hother
        rw [wireIvar_eq, only e' he' hother, Value.isNil, if_pos rfl]

theorem message_obj (himp : Implements scopes env sch defs) {t : ThriftType} {fi : FieldInfo}
    {oid : ℕ} {eigen : Bool} {ivars : List (ID × Value)} (hm : Mirrors scopes env.classes t fi)
    (hw : Within scopes defs t) (ih : Held (Messaged scopes env sch defs full) ivars)
    (hc : Conforms sch fi (.obj oid fi.klass eigen ivars))
    (ho : Ordinary sch fi (.obj oid fi.klass eigen ivars)) :
    Message scopes full t (wireOf sch fi (.obj oid fi.klass eigen ivars)) := by
  cases hc with
  | struct _ _ _ _ fields type table required held =>
    obtain ⟨s, h, klass⟩ := mirrors_struct hm type
    have hs := hw s (.struct h)
    obtain ⟨fields₁, hf₁, htable, hunion⟩ := himp.table s hs fi.klass klass
    obtain rfl : fields = fields₁ := Option.some.inj (table.symm.trans hf₁)
    have hwire : wireOf sch fi (.obj oid fi.klass eigen ivars) =
        .struct (fields.entries.filterMap fun e => wireIvar sch e ivars) := by
      simp only [wireOf, table]
    rw [hwire]
    obtain ⟨hord, hsingle⟩ := ordinary_fields ho table
    rw [hunion] at hsingle
    refine .struct h (memberAt s) (fun f hf => ?_) (fun f hf => ?_) hsingle fun _ m hmem hreq => ?_
    · obtain ⟨e, he, hne, rfl⟩ := mem_wireIvars.mp hf
      obtain ⟨g, hg, hid, -⟩ := htable.entry e he
      dsimp only
      rw [hid]
      exact memberAt_mem hg
    · obtain ⟨e, he, hne, rfl⟩ := mem_wireIvars.mp hf
      obtain ⟨g, hg, hid, -⟩ := htable.entry e he
      obtain ⟨hmem, hat⟩ := memberAt_mem hg
      rw [← hid] at hmem hat
      have hfind : fields.find? (wireId (memberAt s e.1)) = some e.2 := by
        rw [hat]
        exact (fields.find?_eq_some_iff e.1 e.2).mpr he
      have hinfo := memberInfo_at htable hmem hfind
      exact ih _ hne _ _ hinfo.mirrors (himp.closed s hs _ hmem) (held e he hne) (hord e he hne)
    · obtain ⟨e, hfind, hinfo⟩ := htable.member m hmem
      have he := (fields.find?_eq_some_iff (wireId m) e).mp hfind
      have hne := required _ he (by rw [hinfo.isOptional]; simpa using hreq)
      exact List.mem_map.mpr ⟨_, mem_wireIvars.mpr ⟨_, he, hne, rfl⟩, rfl⟩

theorem within_of_expands {t u : ThriftType} (hw : Within scopes defs t)
    (h : ∀ s, TypeRefers scopes u s → TypeRefers scopes t s) : Within scopes defs u :=
  fun s hs => hw s (h s hs)

theorem message_wireOf (himp : Implements scopes env sch defs) (v : Value) :
    ∀ (t : ThriftType) (fi : FieldInfo), Mirrors scopes env.classes t fi → Within scopes defs t →
      Conforms sch fi v → Ordinary sch fi v → Message scopes full t (wireOf sch fi v) := by
  induction v using Value.induct with
  | nil | sym | klass | foreign => intro t fi _ _ hc; cases hc
  | int n =>
    intro t fi hm _ hc _
    cases hc with
    | int _ _ range => exact message_int hm range
  | bool b =>
    intro t fi hm _ hc _
    cases hc with
    | bool _ _ type =>
      obtain ⟨bin, h⟩ := base_of_ftype hm (.inl rfl) type
      exact .bool h b
  | float bits =>
    intro t fi hm _ hc _
    cases hc with
    | double _ _ type =>
      obtain ⟨bin, h⟩ := base_of_ftype hm (.inr (.inl rfl)) type
      exact .double h bits
  | str enc bytes =>
    intro t fi hm _ hc _
    cases hc with
    | string _ _ _ type =>
      obtain ⟨bin, h⟩ := base_of_ftype hm (.inr (.inr rfl)) type
      exact .string h _ bytes
  | ary xs ih =>
    intro t fi hm hw hc ho
    cases hc with
    | list _ e _ type element elems =>
      cases ho with
      | list _ e₁ _ element₁ size ord =>
        obtain rfl : e = e₁ := Option.some.inj (element.symm.trans element₁)
        obtain ⟨u, e₂, hu, element₂, hinner⟩ := mirrors_list hm type
        obtain rfl : e = e₂ := Option.some.inj (element.symm.trans element₂)
        simp only [wireOf, element]
        rw [wireElems_eq]
        apply Message.list hu (onWire_mirrors hinner)
        intro w hmem
        obtain ⟨x, hx, rfl⟩ := List.mem_map.mp hmem
        exact ih x hx u e hinner (within_of_expands hw fun s hs => .list hu hs) (elems x hx)
          (ord x hx)
  | set xs ih =>
    intro t fi hm hw hc ho
    cases hc with
    | set _ e _ type element elems =>
      cases ho with
      | set _ e₁ _ element₁ size distinct ord =>
        obtain rfl : e = e₁ := Option.some.inj (element.symm.trans element₁)
        obtain ⟨u, e₂, hu, element₂, hinner⟩ := mirrors_set hm type
        obtain rfl : e = e₂ := Option.some.inj (element.symm.trans element₂)
        simp only [wireOf, element]
        rw [wireElems_eq]
        apply Message.set hu (onWire_mirrors hinner)
        intro w hmem
        obtain ⟨x, hx, rfl⟩ := List.mem_map.mp hmem
        exact ih x hx u e hinner (within_of_expands hw fun s hs => .set hu hs) (elems x hx)
          (ord x hx)
  | hash kvs ih =>
    intro t fi hm hw hc ho
    cases hc with
    | map _ k e _ type key element keys values =>
      cases ho with
      | map _ k₁ e₁ _ key₁ element₁ size distinct keys₁ values₁ =>
        obtain rfl : e = e₁ := Option.some.inj (element.symm.trans element₁)
        obtain rfl : k = k₁ := Option.some.inj (key.symm.trans key₁)
        obtain ⟨u, v, k₂, e₂, hu, key₂, element₂, hkey, hvalue⟩ := mirrors_map hm type
        obtain rfl : e = e₂ := Option.some.inj (element.symm.trans element₂)
        obtain rfl : k = k₂ := Option.some.inj (key.symm.trans key₂)
        simp only [wireOf, key, element]
        rw [wireEntries_eq]
        apply Message.map hu
        · intro kv hmem
          obtain ⟨x, hx, rfl⟩ := List.mem_map.mp hmem
          exact (ih x hx).1 u k hkey (within_of_expands hw fun s hs => .key hu hs) (keys x hx)
            (keys₁ x hx)
        · intro kv hmem
          obtain ⟨x, hx, rfl⟩ := List.mem_map.mp hmem
          exact (ih x hx).2 v e hvalue (within_of_expands hw fun s hs => .value hu hs) (values x hx)
            (values₁ x hx)
  | obj oid klass eigen ivars ih =>
    intro t fi hm hw hc ho
    obtain rfl : klass = fi.klass := by
      cases hc with
      | struct => rfl
    exact message_obj himp hm hw (held_of_entries ih) hc ho

end Written

section Read
variable {scopes : String → Scope} {env : Environment} {sch : Schema} {defs : TStruct → Prop}
  {full : Prop} {fi : FieldInfo}

theorem framed_fields {fields : FieldInfoMap} {fs : List (Int16 × WireValue)}
    (h : ∀ f ∈ fs, ∃ fi, fields.find? f.1 = some fi ∧ f.2.type = fi.ftype ∧
      verdict sch fi f.2 = .framed) : verdictFields sch fields fs = .framed := by
  induction fs with
  | nil => rfl
  | cons f fs ih =>
    obtain ⟨fid, w⟩ := f
    obtain ⟨⟨fi, hfind, htype, hframed⟩, hrest⟩ := List.forall_mem_cons.mp h
    have htype' : ¬ fi.ftype ≠ w.type := not_not.mpr htype.symm
    simp only [verdictFields, hfind, if_neg htype', hframed, Verdict.framed_seq]
    exact ih hrest

theorem framed_union {fields : FieldInfoMap} {fs : List (Int16 × WireValue)} (hlen : fs.length ≤ 1)
    (h : ∀ f ∈ fs, ∃ fi, fields.find? f.1 = some fi ∧ verdict sch fi f.2 = .framed) :
    verdictUnion sch fields fs = .framed := by
  match fs with
  | [] => rfl
  | [(fid, w)] =>
    obtain ⟨fi, hfind, hframed⟩ := h (fid, w) (by simp)
    simp only [verdictUnion, hfind, hframed, Verdict.framed_seq, List.isEmpty_nil, if_true]
  | _ :: _ :: fs => simp at hlen

theorem table_of_message (himp : Implements scopes env sch defs) {t : ThriftType} {s : TStruct}
    {fi : FieldInfo} (h : Expands scopes t (.struct s)) (hm : Mirrors scopes env.classes t fi)
    (hw : Within scopes defs t) : defs s ∧ fi.ftype = .STRUCT ∧ ∃ fields,
      sch.fieldInfoMap fi.klass = some fields ∧ TableOf scopes env s fields ∧
        sch.isUnion fi.klass = s.isUnion := by
  have hwire : OnWire scopes t .STRUCT := ⟨_, h, rfl⟩
  have htype := hwire.unique (onWire_mirrors hm)
  obtain ⟨s', h', hklass⟩ := mirrors_struct hm htype.symm
  obtain rfl := ThriftType.struct.inj (h.unique h')
  have hs := hw s (.struct h)
  exact ⟨hs, htype.symm, himp.table s hs fi.klass hklass⟩

theorem fieldInfo_of_member {s : TStruct} {fields : FieldInfoMap} (h : TableOf scopes env s fields)
    {m : TField} {fid : Int16} (hm : m ∈ s.members) (hid : wireId m = fid) :
    ∃ fi, fields.find? fid = some fi ∧ MemberInfo scopes env m fi := by
  rw [← hid]
  exact h.member m hm

theorem framed_of_message (hnames : Unshadowed sch) (himp : Implements scopes env sch defs)
    {t : ThriftType} {w : WireValue} (h : Message scopes full t w) :
    ∀ fi, Mirrors scopes env.classes t fi → Within scopes defs t → verdict sch fi w = .framed := by
  induction h with
  | bool | byte | i16 | i32 | i64 | double | string | enum => exact fun _ _ _ => rfl
  | @list t e et ws h type elems ih =>
    intro fi hm hw
    have hwire : OnWire scopes t .LIST := ⟨_, h, rfl⟩
    obtain ⟨u, ei, hu, helement, hinner⟩ := mirrors_list hm (hwire.unique (onWire_mirrors hm)).symm
    obtain rfl := ThriftType.list.inj (h.unique hu)
    have hne : ¬ et ≠ ei.ftype := not_not.mpr (type.unique (onWire_mirrors hinner))
    simp only [verdict, helement, if_neg hne, verdictElems_eq]
    refine all_framed_of fun w hmem => ?_
    exact ih w hmem ei hinner (within_of_expands hw fun s hs => .list h hs)
  | @set t e et ws h type elems ih =>
    intro fi hm hw
    have hwire : OnWire scopes t .SET := ⟨_, h, rfl⟩
    obtain ⟨u, ei, hu, helement, hinner⟩ := mirrors_set hm (hwire.unique (onWire_mirrors hm)).symm
    obtain rfl := ThriftType.set.inj (h.unique hu)
    have hne : ¬ et ≠ ei.ftype := not_not.mpr (type.unique (onWire_mirrors hinner))
    simp only [verdict, helement, if_neg hne, verdictElems_eq]
    refine all_framed_of fun w hmem => ?_
    exact ih w hmem ei hinner (within_of_expands hw fun s hs => .set h hs)
  | @map t k v kt vt kvs h keys values ihk ihv =>
    intro fi hm hw
    have hwire : OnWire scopes t .MAP := ⟨_, h, rfl⟩
    obtain ⟨k', v', ki, vi, hu, hkey, helement, hinnerk, hinnerv⟩ :=
      mirrors_map hm (hwire.unique (onWire_mirrors hm)).symm
    obtain ⟨rfl, rfl⟩ := ThriftType.map.inj (h.unique hu)
    simp only [verdict, hkey, helement, verdictEntries_eq]
    refine all_framed_of fun kv hmem => ?_
    rw [ihk kv hmem ki hinnerk (within_of_expands hw fun s hs => .key h hs), Verdict.framed_seq]
    exact ihv kv hmem vi hinnerv (within_of_expands hw fun s hs => .value h hs)
  | @struct t s fs h member known typed single complete ih =>
    intro fi hm hw
    obtain ⟨hs, -, fields, hf, htable, hunion⟩ := table_of_message himp h hm hw
    have hfields : ∀ f ∈ fs, ∃ fi', fields.find? f.1 = some fi' ∧ f.2.type = fi'.ftype ∧
        verdict sch fi' f.2 = .framed := by
      intro f hmem
      obtain ⟨hmember, hid⟩ := known f hmem
      obtain ⟨fi', hfind, hinfo⟩ := fieldInfo_of_member htable hmember hid
      exact ⟨fi', hfind, (typed f hmem).type hinfo.mirrors,
        ih f hmem fi' hinfo.mirrors (himp.closed s hs _ hmember)⟩
    simp only [verdict, hf, verdictNew_framed hnames, Verdict.framed_seq]
    split
    · rename_i hun
      exact framed_union (single (hunion ▸ hun)) fun f hmem => by
        obtain ⟨fi', hfind, -, hframed⟩ := hfields f hmem
        exact ⟨fi', hfind, hframed⟩
    · exact framed_fields hfields

theorem inTurn_forall {β γ : Type} {make : γ → ℕ → β × ℕ} {good : β → Prop} {items : List γ}
    (h : ∀ c ∈ items, ∀ next, good (make c next).1) (next : ℕ) :
    ∀ b ∈ (inTurn make items next).1, good b := by
  induction items generalizing next with
  | nil => exact fun b hb => absurd hb List.not_mem_nil
  | cons c items ih =>
    have hrest := ih (fun d hd => h d (List.mem_cons_of_mem _ hd)) (make c next).2
    exact List.forall_mem_cons.mpr ⟨h c (by simp) next, hrest⟩

/-- The fields that an object has so far are good to be written. -/
def Writable (sch : Schema) (fields : FieldInfoMap) (ivars : List (ID × Value)) : Prop :=
  ∀ e ∈ fields.entries, ivarGet ivars e.2.ivarName ≠ .nil →
    Conforms sch e.2 (ivarGet ivars e.2.ivarName)

/-- The defaults of every class are values of its fields. -/
def DefaultsConform (sch : Schema) : Prop :=
  ∀ klass fields, sch.fieldInfoMap klass = some fields → ∀ oid,
    Writable sch fields (created sch klass oid).ivars

theorem Writable.set {klass : VALUE} {fields : FieldInfoMap} {ivars : List (ID × Value)}
    (h : Writable sch fields ivars) (hf : sch.fieldInfoMap klass = some fields)
    {e : Int16 × FieldInfo} (he : e ∈ fields.entries) {v : Value} (hv : Conforms sch e.2 v) :
    Writable sch fields (ivarSet ivars e.2.ivarName v) := by
  intro e' he' hne
  by_cases hname : e.2.ivarName = e'.2.ivarName
  · rw [ivarGet_ivarSet, if_pos hname, ← sch.entry_unique hf he he' hname]
    exact hv
  · rw [ivarGet_ivarSet, if_neg hname] at hne ⊢
    exact h e' he' hne

theorem conforms_ne_nil {v : Value} (h : Conforms sch fi v) : v ≠ .nil := by
  cases h <;> simp

/-- What `readStruct` has after the fields of a message. -/
structure DecodedInto (sch : Schema) (fields : FieldInfoMap) (ids : List Int16)
    (ret after : Instance) : Prop where
  oid : after.oid = ret.oid
  klass : after.klass = ret.klass
  writable : Writable sch fields after.ivars
  seen : ∀ e ∈ fields.entries, e.1 ∈ ids ∨ ivarGet ret.ivars e.2.ivarName ≠ .nil →
    ivarGet after.ivars e.2.ivarName ≠ .nil

theorem decodedInto_fields {klass : VALUE} {fields : FieldInfoMap}
    (hf : sch.fieldInfoMap klass = some fields) {fs : List (Int16 × WireValue)}
    (h : ∀ f ∈ fs, ∃ fi, fields.find? f.1 = some fi ∧
      ∀ next, Conforms sch fi (decoded sch fi f.2 next).1)
    (ret : Instance) (hret : Writable sch fields ret.ivars) (next : ℕ) :
    DecodedInto sch fields (fs.map Prod.fst) ret (decodedFields sch fields fs ret next).1 := by
  induction fs generalizing ret next with
  | nil =>
    refine ⟨rfl, rfl, hret, fun e _ hseen => ?_⟩
    rcases hseen with hseen | hseen
    · exact absurd hseen List.not_mem_nil
    · exact hseen
  | cons f fs ih =>
    obtain ⟨fid, w⟩ := f
    obtain ⟨⟨fi, hfind, hconforms⟩, hrest⟩ := List.forall_mem_cons.mp h
    have he := (fields.find?_eq_some_iff fid fi).mp hfind
    have hv := hconforms next
    have hnil : ¬ (decoded sch fi w next).1.isNil = true := by
      rw [Value.isNil_eq_true]
      exact conforms_ne_nil hv
    simp only [decodedFields, hfind, if_neg hnil]
    have hset := hret.set hf he hv
    obtain ⟨oid, klass', writable, seen⟩ := ih hrest
      (ret.set fi.ivarName (decoded sch fi w next).1) hset (decoded sch fi w next).2
    refine ⟨oid, klass', writable, fun e he' hseen => seen e he' ?_⟩
    by_cases hname : fi.ivarName = e.2.ivarName
    · right
      rw [Instance.set, ivarGet_ivarSet, if_pos hname]
      exact conforms_ne_nil hv
    · rw [Instance.set, ivarGet_ivarSet, if_neg hname]
      rw [List.map_cons, List.mem_cons, or_assoc] at hseen
      rcases hseen with hseen | hseen
      · have heq : e.2 = fi := Option.some.inj
          (((fields.find?_eq_some_iff e.1 e.2).mpr he').symm.trans (hseen ▸ hfind))
        exact absurd (by rw [heq]) hname
      · exact hseen

theorem decodedInto_union {klass : VALUE} {fields : FieldInfoMap}
    (hf : sch.fieldInfoMap klass = some fields) {fs : List (Int16 × WireValue)}
    (hlen : fs.length ≤ 1) (htag : ∀ e ∈ fields.entries, e.2.ivarName ≠ "@setfield")
    (h : ∀ f ∈ fs, ∃ fi, fields.find? f.1 = some fi ∧
      ∀ next, Conforms sch fi (decoded sch fi f.2 next).1)
    (ret : Instance) (hret : Writable sch fields ret.ivars) (next : ℕ) :
    DecodedInto sch fields (fs.map Prod.fst) ret (decodedUnion sch fields fs ret next).1 := by
  match fs with
  | [] => exact decodedInto_fields hf h ret hret next
  | [(fid, w)] =>
    obtain ⟨fi, hfind, hconforms⟩ := h (fid, w) (by simp)
    have htagged : Writable sch fields (ret.set "@setfield" (.sym fi.symName)).ivars := by
      intro e he hne
      rw [Instance.set, ivarGet_ivarSet, if_neg (Ne.symm (htag e he))] at hne ⊢
      exact hret e he hne
    have hfilled := decodedInto_fields hf h _ htagged next
    have hnil : ¬ (decoded sch fi w next).1.isNil = true := by
      rw [Value.isNil_eq_true]
      exact conforms_ne_nil (hconforms next)
    simp only [decodedFields, hfind, if_neg hnil] at hfilled
    simp only [decodedUnion, hfind, if_neg hnil]
    refine ⟨hfilled.oid, hfilled.klass, hfilled.writable, fun e he hseen => hfilled.seen e he ?_⟩
    rwa [Instance.set, ivarGet_ivarSet, if_neg (Ne.symm (htag e he))]
  | _ :: _ :: fs => simp at hlen

theorem conforms_toInt {n : ℤ} {ttype : TType} (htype : ttype = fi.ftype)
    (range : inWidth ttype n = true) : Conforms sch fi (.int n) := by
  rw [htype] at range
  exact .int fi n range

theorem conforms_list {t u : ThriftType} {et : TType} {ws : List WireValue}
    (h : Expands scopes t (.list u)) (type : OnWire scopes u et)
    (ih : ∀ w ∈ ws, ∀ ei next, Mirrors scopes env.classes u ei →
      Conforms sch ei (decoded sch ei w next).1)
    (hm : Mirrors scopes env.classes t fi) (next : ℕ) :
    Conforms sch fi (decoded sch fi (.list et ws) next).1 := by
  have htype := OnWire.unique ⟨_, h, rfl⟩ (onWire_mirrors hm)
  obtain ⟨u', ei, hu, helement, hinner⟩ := mirrors_list hm htype.symm
  obtain rfl := ThriftType.list.inj (h.unique hu)
  have hne : ¬ et ≠ ei.ftype := not_not.mpr (type.unique (onWire_mirrors hinner))
  simp only [decoded, helement, if_neg hne, decodedElems_eq]
  apply Conforms.list fi ei _ htype.symm helement
  apply inTurn_forall
  intro w hmem next
  exact ih w hmem ei next hinner

theorem conforms_set {t u : ThriftType} {et : TType} {ws : List WireValue}
    (h : Expands scopes t (.set u)) (type : OnWire scopes u et)
    (ih : ∀ w ∈ ws, ∀ ei next, Mirrors scopes env.classes u ei →
      Conforms sch ei (decoded sch ei w next).1)
    (hm : Mirrors scopes env.classes t fi) (next : ℕ) :
    Conforms sch fi (decoded sch fi (.set et ws) next).1 := by
  have htype := OnWire.unique ⟨_, h, rfl⟩ (onWire_mirrors hm)
  obtain ⟨u', ei, hu, helement, hinner⟩ := mirrors_set hm htype.symm
  obtain rfl := ThriftType.set.inj (h.unique hu)
  have hne : ¬ et ≠ ei.ftype := not_not.mpr (type.unique (onWire_mirrors hinner))
  simp only [decoded, helement, if_neg hne, decodedElems_eq]
  apply Conforms.set fi ei _ htype.symm helement
  intro x hx
  have hall : ∀ x ∈ (inTurn (decoded sch ei) ws next).1, Conforms sch ei x := by
    apply inTurn_forall
    intro w hmem next
    exact ih w hmem ei next hinner
  exact hall x (mem_setNew sch.isUnion hx)

theorem conforms_map {t k v : ThriftType} {kt vt : TType} {kvs : List (WireValue × WireValue)}
    (h : Expands scopes t (.map k v))
    (ihk : ∀ kv ∈ kvs, ∀ ki next, Mirrors scopes env.classes k ki →
      Conforms sch ki (decoded sch ki kv.1 next).1)
    (ihv : ∀ kv ∈ kvs, ∀ vi next, Mirrors scopes env.classes v vi →
      Conforms sch vi (decoded sch vi kv.2 next).1)
    (hm : Mirrors scopes env.classes t fi) (next : ℕ) :
    Conforms sch fi (decoded sch fi (.map kt vt kvs) next).1 := by
  have htype := OnWire.unique ⟨_, h, rfl⟩ (onWire_mirrors hm)
  obtain ⟨k', v', ki, vi, hu, hkey, helement, hinnerk, hinnerv⟩ := mirrors_map hm htype.symm
  obtain ⟨rfl, rfl⟩ := ThriftType.map.inj (h.unique hu)
  simp only [decoded, hkey, helement, decodedEntries_eq]
  have hentries : ∀ e ∈ (inTurn (decodedEntry sch ki vi) kvs next).1,
      Conforms sch ki e.1 ∧ Conforms sch vi e.2 := by
    apply inTurn_forall
    intro kv hmem next
    exact ⟨ihk kv hmem ki next hinnerk, ihv kv hmem vi _ hinnerv⟩
  have hall := hashNew_forall sch.isUnion _ hentries
  exact .map fi ki vi _ htype.symm hkey helement (fun e he => (hall e he).1)
    fun e he => (hall e he).2

theorem conforms_object {s : TStruct} {fields : FieldInfoMap} {ids : List Int16}
    (htable : TableOf scopes env s fields) (hf : sch.fieldInfoMap fi.klass = some fields)
    (htype : fi.ftype = .STRUCT)
    (complete : ∀ m ∈ s.members, m.req ≠ .T_OPTIONAL → wireId m ∈ ids) {next : ℕ}
    {after : Instance} (h : DecodedInto sch fields ids (created sch fi.klass next) after) :
    Conforms sch fi after.toValue := by
  have hklass : after.klass = fi.klass := h.klass
  rw [Instance.toValue, hklass]
  refine .struct fi _ false _ fields htype hf (fun e he hreq => ?_) h.writable
  obtain ⟨m, hmem, hid, hinfo⟩ := htable.entry e he
  apply h.seen e he
  left
  rw [hid]
  apply complete m hmem
  rw [hinfo.isOptional] at hreq
  simpa using hreq

theorem ivarName_ne_setfield (himp : Implements scopes env sch defs) {s : TStruct} (hs : defs s)
    (hunion : s.isUnion = true) {klass : VALUE} {fields : FieldInfoMap}
    (hf : sch.fieldInfoMap klass = some fields) (htable : TableOf scopes env s fields) :
    ∀ e ∈ fields.entries, e.2.ivarName ≠ "@setfield" := by
  intro e he
  obtain ⟨m, hmem, -, hinfo⟩ := htable.entry e he
  obtain ⟨hident, hne⟩ := himp.tag s hs hunion m hmem
  have hset : "@setfield" = "@" ++ "setfield" := by decide
  rw [sch.ivarName klass fields hf e he, memberInfo_symName hinfo hident, hset, ne_eq,
    String.append_right_inj]
  exact hne

theorem conforms_of_message (himp : Implements scopes env sch defs)
    (hdefaults : DefaultsConform sch) (hfull : full) {t : ThriftType} {w : WireValue}
    (h : Message scopes full t w) : ∀ fi next, Mirrors scopes env.classes t fi →
      Within scopes defs t → Conforms sch fi (decoded sch fi w next).1 := by
  induction h with
  | byte h n =>
    intro fi next hm _
    have hrange : inWidth .BYTE n.toInt = true := decide_eq_true ⟨n.le_toInt, n.toInt_lt⟩
    exact conforms_toInt (OnWire.unique ⟨_, h, rfl⟩ (onWire_mirrors hm)) hrange
  | i16 h n =>
    intro fi next hm _
    have hrange : inWidth .I16 n.toInt = true := decide_eq_true ⟨n.le_toInt, n.toInt_lt⟩
    exact conforms_toInt (OnWire.unique ⟨_, h, rfl⟩ (onWire_mirrors hm)) hrange
  | i32 h n =>
    intro fi next hm _
    have hrange : inWidth .I32 n.toInt = true := decide_eq_true ⟨n.le_toInt, n.toInt_lt⟩
    exact conforms_toInt (OnWire.unique ⟨_, h, rfl⟩ (onWire_mirrors hm)) hrange
  | i64 h n =>
    intro fi next hm _
    have hrange : inWidth .I64 n.toInt = true := decide_eq_true ⟨n.le_toInt, n.toInt_lt⟩
    exact conforms_toInt (OnWire.unique ⟨_, h, rfl⟩ (onWire_mirrors hm)) hrange
  | enum h n =>
    intro fi next hm _
    have hrange : inWidth .I32 n.toInt = true := decide_eq_true ⟨n.le_toInt, n.toInt_lt⟩
    exact conforms_toInt (OnWire.unique ⟨_, h, rfl⟩ (onWire_mirrors hm)) hrange
  | bool h b =>
    intro fi next hm _
    have htype := OnWire.unique ⟨_, h, rfl⟩ (onWire_mirrors hm)
    exact .bool fi b htype.symm
  | double h bits =>
    intro fi next hm _
    have htype := OnWire.unique ⟨_, h, rfl⟩ (onWire_mirrors hm)
    exact .double fi bits htype.symm
  | string h isBinary bytes =>
    intro fi next hm _
    have htype := OnWire.unique ⟨_, h, rfl⟩ (onWire_mirrors hm)
    exact .string fi _ bytes htype.symm
  | @list t e et ws h type elems ih =>
    intro fi next hm hw
    have hinner := within_of_expands hw fun s hs => .list h hs
    exact conforms_list h type (fun w hmem ei next hei => ih w hmem ei next hei hinner) hm next
  | @set t e et ws h type elems ih =>
    intro fi next hm hw
    have hinner := within_of_expands hw fun s hs => .set h hs
    exact conforms_set h type (fun w hmem ei next hei => ih w hmem ei next hei hinner) hm next
  | @map t k v kt vt kvs h keys values ihk ihv =>
    intro fi next hm hw
    have hkeys := within_of_expands hw fun s hs => .key h hs
    have hvalues := within_of_expands hw fun s hs => .value h hs
    exact conforms_map h (fun kv hmem ki next hki => ihk kv hmem ki next hki hkeys)
      (fun kv hmem vi next hvi => ihv kv hmem vi next hvi hvalues) hm next
  | @struct t s fs h member known typed single complete ih =>
    intro fi next hm hw
    obtain ⟨hs, htype, fields, hf, htable, hunion⟩ := table_of_message himp h hm hw
    have hfields : ∀ f ∈ fs, ∃ fi', fields.find? f.1 = some fi' ∧
        ∀ next, Conforms sch fi' (decoded sch fi' f.2 next).1 := by
      intro f hmem
      obtain ⟨hmember, hid⟩ := known f hmem
      obtain ⟨fi', hfind, hinfo⟩ := fieldInfo_of_member htable hmember hid
      exact ⟨fi', hfind, fun next => ih f hmem fi' next hinfo.mirrors (himp.closed s hs _ hmember)⟩
    have hret := hdefaults fi.klass fields hf next
    simp only [decoded, hf]
    split
    · rename_i hun
      rw [hunion] at hun
      have htag := ivarName_ne_setfield himp hs hun hf htable
      exact conforms_object htable hf htype (complete hfull)
        (decodedInto_union hf (single hun) htag hfields _ hret _)
    · exact conforms_object htable hf htype (complete hfull)
        (decodedInto_fields hf hfields _ hret _)

theorem serialize_of_conforms {σ : Type} (P : TProtocol σ) {oid : ℕ} {klass : VALUE} {eigen : Bool}
    {ivars : List (ID × Value)} (hk : sch.Cached klass)
    (hc : Conforms sch (classInfo klass) (.obj oid klass eigen ivars)) :
    ∃ bytes, serialize P sch (.obj oid klass eigen ivars) = .ok bytes := by
  have hrun : Spec (writeAny sch (.user klass) "" .STRUCT (classInfo klass)
      (.obj oid klass eigen ivars)) [] _ _ :=
    decided (.obj oid klass eigen ivars) (.user klass) "" (classInfo klass)
      (generated_classInfo sch hk) []
  have hpass : Passes sch (classInfo klass) (.obj oid klass eigen ivars) := passes_of_conforms hc
  unfold serialize
  simp only [real_classOf_obj]
  rw [serializerWriteStruct_eq sch oid klass eigen ivars (.user klass) ""]
  unfold Spec at hrun
  split at hrun
  · rename_i out hw
    rw [hw]
    exact ⟨_, rfl⟩
  · obtain ⟨-, -, hfails⟩ := hrun
    exact absurd hpass hfails

end Read

section Releases
variable {σ : Type} (P : TProtocol σ) (r : Release)

/-- The files of the release refer to no definition of another file, and the members
    of their unions can be told from the tag. -/
structure Whole : Prop where
  closed : ∀ p ∈ r.files, ∀ s ∈ p.objects, ∀ f ∈ s.members, ∀ t, TypeRefers r.scopes f.type t →
    ∃ q ∈ r.files, t ∈ q.objects
  tag : ∀ p ∈ r.files, ∀ s ∈ p.objects, s.isUnion = true → ∀ f ∈ s.members,
    IsIdentifier f.name ∧ f.name ≠ "setfield"

variable {r} {p : Program} {s : TStruct} {klass : VALUE}

theorem Whole.implements (h : Whole r) :
    Implements r.scopes r.env r.runtime.schema fun s => ∃ p ∈ r.files, s ∈ p.objects where
  table := by
    rintro s ⟨p, hp, hs⟩ k hk
    obtain ⟨klass, c, hc⟩ := r.loaded p hp s hs
    obtain rfl : k = klass := Option.some.inj (hk.symm.trans hc.named)
    obtain ⟨fields, hf, htable⟩ := tableOf_class (r.keys_nodup hp hs) (r.fits p hp s hs) hc
    exact ⟨fields, hf, htable, (Loading.schema_isUnion _ hc.found).trans hc.isUnion⟩
  closed := by
    rintro s ⟨p, hp, hs⟩ f hf t ht
    exact h.closed p hp s hs f hf t ht
  tag := by
    rintro s ⟨p, hp, hs⟩
    exact h.tag p hp s hs

theorem within_struct (hp : p ∈ r.files) (hs : s ∈ p.objects) :
    Within r.scopes (fun s => ∃ p ∈ r.files, s ∈ p.objects) (.struct s) := by
  have hself : Expands r.scopes (.struct s) (.struct s) := expands_self rfl
  intro t ht
  cases ht with
  | struct h =>
    obtain rfl := ThriftType.struct.inj (hself.unique h)
    exact ⟨p, hp, hs⟩
  | list h | set h | key h | value h => cases hself.unique h

theorem mirrors_classInfo (hk : r.env.classes (classPath s) = some klass) :
    Mirrors r.scopes r.env.classes (.struct s) (classInfo klass) :=
  .struct (expands_self rfl) rfl hk rfl rfl rfl

theorem cached_of_named (hp : p ∈ r.files) (hs : s ∈ p.objects)
    (hk : r.env.classes (classPath s) = some klass) : r.runtime.schema.Cached klass := by
  obtain ⟨klass', c, hc⟩ := r.loaded p hp s hs
  obtain rfl : klass = klass' := Option.some.inj (hk.symm.trans hc.named)
  obtain ⟨fields, hf, -⟩ := tableOf_class (r.keys_nodup hp hs) (r.fits p hp s hs) hc
  simp [Schema.Cached, hf]

/-- An object of a generated class is written as a message of its definition, with no
    member missing. -/
theorem written_message (h : Whole r) (hp : p ∈ r.files) (hs : s ∈ p.objects)
    (hk : r.env.classes (classPath s) = some klass) (oid : ℕ) (eigen : Bool)
    (ivars : List (ID × Value))
    (ho : Ordinary r.runtime.schema (classInfo klass) (.obj oid klass eigen ivars))
    (bytes : List UInt8)
    (hb : serialize P r.runtime.schema (.obj oid klass eigen ivars) = .ok bytes) :
    ∃ w, Message r.scopes True (.struct s) w ∧ bytes = P.encode w.tokens := by
  obtain ⟨hc, hbytes⟩ := serialize_encode P (cached_of_named hp hs hk) hb
  refine ⟨_, ?_, hbytes⟩
  exact message_wireOf h.implements _ _ _ (mirrors_classInfo hk) (within_struct hp hs) hc ho

end Releases

section Examples
open BinaryProtocol AuditReflexivity

theorem oldPixels_whole : Whole oldPixels := by
  have hobjects : ∀ q ∈ oldPixels.files, ∀ s ∈ q.objects, s = pixel := by
    intro q hq s hs
    obtain rfl := List.mem_singleton.mp hq
    exact List.mem_singleton.mp hs
  constructor
  · intro q hq s hs f hf t ht
    rw [hobjects q hq s hs] at hf
    obtain rfl := List.mem_singleton.mp hf
    exact absurd ht not_typeRefers_base
  · intro q hq s hs hunion
    rw [hobjects q hq s hs] at hunion
    cases hunion

theorem oldPixels_unshadowed : Unshadowed oldPixels.runtime.schema :=
  Loading.unshadowed_of_defs pixelRuntime (by decide +kernel)

theorem oldPixels_defaults : DefaultsConform oldPixels.runtime.schema := by
  intro klass fields hf oid e he hne
  have hk : oldPixels.runtime.schema.Cached klass := by simp [Schema.Cached, hf]
  have hmem : klass ∈ [8] := (Loading.schema_cached_iff pixelRuntime klass).mp hk
  obtain rfl := List.mem_singleton.mp hmem
  have hstruct : oldPixels.runtime.schema.isUnion 8 = false := by decide +kernel
  have hpasses : ∀ fields, oldPixels.runtime.schema.fieldInfoMap 8 = some fields →
      ∀ e ∈ fields.entries, Passes oldPixels.runtime.schema e.2
        (newIvar oldPixels.runtime.schema 8 e.2.ivarName) := by
    have hall : ∀ e ∈ ((oldPixels.runtime.schema.fieldInfoMap 8).getD SortedMap.empty).entries,
        firstFailing (checks oldPixels.runtime.schema e.2
          (newIvar oldPixels.runtime.schema 8 e.2.ivarName)) = none := by decide +kernel
    intro fields hf
    rw [hf] at hall
    exact hall
  have hnew : ∀ name, ivarGet (created oldPixels.runtime.schema 8 oid).ivars name =
      newIvar oldPixels.runtime.schema 8 name := by
    intro name
    rw [created, oldPixels_unshadowed.newIvars_struct hk hstruct]
    rfl
  rw [hnew]
  exact conforms_of_passes (oldPixels.runtime.schema.generated 8 fields hf e he)
    (hpasses fields hf e he)

/-- The bytes of a `Pixel` are a message of its definition. -/
theorem pixel_message : ∃ bytes,
    serialize binaryProtocol oldPixels.runtime.schema (.obj 0 8 false [("@depth", .int 24)]) =
      .ok bytes ∧
    ∃ w, Message oldPixels.scopes True (.struct pixel) w ∧
      bytes = binaryProtocol.encode w.tokens := by
  have hok : (serialize binaryProtocol oldPixels.runtime.schema
      (.obj 0 8 false [("@depth", .int 24)])).toBool = true := by decide +kernel
  have ho : isOrdinary oldPixels.runtime.schema (classInfo 8)
      (.obj 0 8 false [("@depth", .int 24)]) = true := by decide +kernel
  cases h : serialize binaryProtocol oldPixels.runtime.schema
      (.obj 0 8 false [("@depth", .int 24)]) with
  | error e =>
    rw [h] at hok
    cases hok
  | ok bytes =>
    exact ⟨bytes, rfl, written_message binaryProtocol oldPixels_whole (p := pixelsProgram)
      (List.mem_singleton.mpr rfl) (List.mem_singleton.mpr rfl) (soleEnvironment_class pixel) 0
      false [("@depth", .int 24)] (ordinary_of_isOrdinary _ _ ho) bytes h⟩

end Examples

end Sparsam.IdlMessages
