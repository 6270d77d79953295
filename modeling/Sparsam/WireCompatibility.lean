import Sparsam.AuditContract
import Sparsam.FieldTables
import Sparsam.SchemaEvolution

set_option autoImplicit false

/-!
# A clean audit and the wire

The audit of two files looks at names and ids, the reader at the field
definitions of the loaded classes. Between two releases whose audits are clean,
and where no name means two things, every message of the old one is read by the
new one.
-/
namespace Sparsam.WireCompatibility
open ThriftTypes ThriftScope ThriftParser SchemaLiteral ClassReferences SchemaEvaluation FieldLists
open WireProtocol RubyRuntime FieldInfoCache ObjectMethods ObjectAgreement SerializerWire
open SerializerRead SerializerWrite SerializerRoundTrip FieldTables
open AuditMerge AuditReflexivity Audit ComparedTypes AuditContract SchemaEvolution

section Shapes
variable {newScopes oldScopes : String → Scope} {newRoot oldRoot : TProgram}
  {newClasses oldClasses : List String → Option VALUE} {κ : VALUE → VALUE}

/-- `κ` takes the class of a definition that the old type refers to, to that of the
    definition which the new type refers to under the same name. -/
def Follows (newScopes oldScopes : String → Scope) (newRoot oldRoot : TProgram)
    (newClasses oldClasses : List String → Option VALUE) (κ : VALUE → VALUE)
    (new old : ThriftType) : Prop :=
  ∀ s s' k k', TypeRefers newScopes new s → TypeRefers oldScopes old s' →
    qualifiedName newRoot s.program s.name = qualifiedName oldRoot s'.program s'.name →
    newClasses (classPath s) = some k → oldClasses (classPath s') = some k' → κ k' = k

theorem baseTType_scalar {b : TBase} (h : b ≠ .TYPE_VOID) :
    baseTType b ∈ [TType.BOOL, .BYTE, .DOUBLE, .I16, .I32, .I64, .STRING] := by
  cases b <;> first | decide | exact absurd rfl h

theorem sameWire_of_sameType {new old : ThriftType} {fi fi' : FieldInfo}
    (h : SameType newScopes oldScopes newRoot oldRoot new old)
    (hfollows : Follows newScopes oldScopes newRoot oldRoot newClasses oldClasses κ new old)
    (hold : Mirrors oldScopes oldClasses old fi) (hnew : Mirrors newScopes newClasses new fi') :
    SameWire κ fi fi' := by
  induction h generalizing fi fi' with
  | @baseType n o b bin hn ho =>
    cases hold with
    | @base _ _ b₁ bin₁ h₁ hvoid leaf =>
      cases hnew with
      | @base _ _ b₂ bin₂ h₂ _ leaf' =>
        obtain ⟨rfl, rfl⟩ := ThriftType.baseType.inj (ho.unique h₁)
        obtain ⟨rfl, rfl⟩ := ThriftType.baseType.inj (hn.unique h₂)
        refine .scalar fi fi' (leaf'.ftype.trans leaf.ftype.symm) ?_
          (leaf'.isBinaryString.trans leaf.isBinaryString.symm)
        rw [leaf.ftype]
        exact baseTType_scalar hvoid
      | enum h₂ | struct h₂ | list h₂ | set h₂ | map h₂ => cases hn.unique h₂
    | enum h₁ | struct h₁ | list h₁ | set h₁ | map h₁ => cases ho.unique h₁
  | enum hn ho hname =>
    cases hold with
    | enum h₁ leaf =>
      cases hnew with
      | enum h₂ leaf' =>
        refine .scalar fi fi' (leaf'.ftype.trans leaf.ftype.symm) ?_
          (leaf'.isBinaryString.trans leaf.isBinaryString.symm)
        rw [leaf.ftype]
        decide
      | base h₂ | struct h₂ | list h₂ | set h₂ | map h₂ => cases hn.unique h₂
    | base h₁ | struct h₁ | list h₁ | set h₁ | map h₁ => cases ho.unique h₁
  | struct hn ho hname =>
    cases hold with
    | struct h₁ ftype klass =>
      cases hnew with
      | struct h₂ ftype' klass' =>
        obtain rfl := ThriftType.struct.inj (ho.unique h₁)
        obtain rfl := ThriftType.struct.inj (hn.unique h₂)
        have hklass := hfollows _ _ _ _ (.struct hn) (.struct ho) hname klass' klass
        exact .struct fi fi' (ftype'.trans ftype.symm) ftype hklass.symm
      | base h₂ | enum h₂ | list h₂ | set h₂ | map h₂ => cases hn.unique h₂
    | base h₁ | enum h₁ | list h₁ | set h₁ | map h₁ => cases ho.unique h₁
  | list hn ho _ ih =>
    cases hold with
    | list h₁ ftype _ _ element _ elem =>
      cases hnew with
      | list h₂ ftype' _ _ element' _ elem' =>
        obtain rfl := ThriftType.list.inj (ho.unique h₁)
        obtain rfl := ThriftType.list.inj (hn.unique h₂)
        refine .sequence fi fi' _ _ (ftype'.trans ftype.symm) (by simp [ftype]) element element'
          (ih ?_ elem elem')
        exact fun s s' k k' hs hs' => hfollows s s' k k' (.list hn hs) (.list ho hs')
      | base h₂ | enum h₂ | struct h₂ | set h₂ | map h₂ => cases hn.unique h₂
    | base h₁ | enum h₁ | struct h₁ | set h₁ | map h₁ => cases ho.unique h₁
  | set hn ho _ ih =>
    cases hold with
    | set h₁ ftype _ _ element _ elem =>
      cases hnew with
      | set h₂ ftype' _ _ element' _ elem' =>
        obtain rfl := ThriftType.set.inj (ho.unique h₁)
        obtain rfl := ThriftType.set.inj (hn.unique h₂)
        refine .sequence fi fi' _ _ (ftype'.trans ftype.symm) (by simp [ftype]) element element'
          (ih ?_ elem elem')
        exact fun s s' k k' hs hs' => hfollows s s' k k' (.set hn hs) (.set ho hs')
      | base h₂ | enum h₂ | struct h₂ | list h₂ | map h₂ => cases hn.unique h₂
    | base h₁ | enum h₁ | struct h₁ | list h₁ | map h₁ => cases ho.unique h₁
  | map hn ho _ _ ihk ihv =>
    cases hold with
    | map h₁ ftype _ _ element key keys elem =>
      cases hnew with
      | map h₂ ftype' _ _ element' key' keys' elem' =>
        obtain ⟨rfl, rfl⟩ := ThriftType.map.inj (ho.unique h₁)
        obtain ⟨rfl, rfl⟩ := ThriftType.map.inj (hn.unique h₂)
        refine .map fi fi' _ _ _ _ (ftype'.trans ftype.symm) ftype key key' element element'
          (ihk ?_ keys keys') (ihv ?_ elem elem')
        · exact fun s s' k k' hs hs' => hfollows s s' k k' (.key hn hs) (.key ho hs')
        · exact fun s s' k k' hs hs' => hfollows s s' k k' (.value hn hs) (.value ho hs')
      | base h₂ | enum h₂ | struct h₂ | list h₂ | set h₂ => cases hn.unique h₂
    | base h₁ | enum h₁ | struct h₁ | list h₁ | set h₁ => cases ho.unique h₁

end Shapes

section Classes
variable {scopes : String → Scope} {fuel : ℕ} {env : Environment} {runtime : Loading.Program}
  {s : TStruct} {klass : VALUE}

/-- The class that the runtime has for a definition: its `FIELDS` is the evaluated
    literal that was printed for it. -/
structure ClassOf (scopes : String → Scope) (fuel : ℕ) (env : Environment)
    (runtime : Loading.Program) (s : TStruct) (klass : VALUE) (c : RubyClass) : Prop where
  named : env.classes (classPath s) = some klass
  found : runtime.findClass klass = some c
  isUnion : c.inheritsUnion = s.isUnion
  fields : ∃ lit, generateFieldDefns scopes fuel s = .ok lit ∧
    env.eval lit = some (.hash c.fields)

theorem tableOf_class {c : RubyClass} (hkeys : (s.members.map fun f => f.key).Nodup)
    (hfits : ∀ f ∈ s.members, Fits f) (h : ClassOf scopes fuel env runtime s klass c) :
    ∃ fields, runtime.schema.fieldInfoMap klass = some fields ∧ TableOf scopes env s fields := by
  obtain ⟨lit, hlit, heval⟩ := h.fields
  obtain ⟨defs, fields, hdefs, htable, hof⟩ := tableOf_fieldDefns hkeys hfits hlit heval
  obtain rfl : c.fields = defs := by simpa using hdefs
  exact ⟨fields, (Loading.schema_fields runtime h.found).trans htable, hof⟩

end Classes

def Accepted (p : Program) : Prop :=
  ∃ flags scopes fuel includes path file scope parent pass,
    parseProgram flags scopes fuel includes path file scope parent = .ok pass ∧ pass.program = p

/-- A version of the files as it runs: the compiler accepted each of them, and the
    runtime has loaded the classes of their definitions and no others. -/
structure Release where
  files : List Program
  scopes : String → Scope
  fuel : ℕ
  env : Environment
  runtime : Loading.Program
  accepted : ∀ p ∈ files, Accepted p
  fits : ∀ p ∈ files, ∀ s ∈ p.objects, ∀ f ∈ s.members, Fits f
  loaded : ∀ p ∈ files, ∀ s ∈ p.objects, ∃ klass c, ClassOf scopes fuel env runtime s klass c
  covered : ∀ klass, runtime.schema.Cached klass → ∃ p ∈ files, ∃ s ∈ p.objects,
    env.classes (classPath s) = some klass

namespace Release
variable (new old : Release) (κ : VALUE → VALUE)

/-- The audit of two files is clean, and their names mean what they say: one name has
    one kind, and members of one id and one printed type have one type. -/
structure Audited (n o : Program) : Prop where
  clean : ¬ returnFailure (audit n o)
  kind : ∀ s ∈ n.objects, ∀ s' ∈ o.objects, s.name = s'.name → s.isUnion = s'.isUnion
  klass : ∀ s ∈ n.objects, ∀ s' ∈ o.objects, s.name = s'.name → ∀ k k',
    new.env.classes (classPath s) = some k → old.env.classes (classPath s') = some k' → κ k' = k
  honest : ∀ s ∈ n.objects, ∀ s' ∈ o.objects, s.name = s'.name →
    ∀ f ∈ s.members, ∀ f' ∈ s'.members, f.key = f'.key →
      (∀ p ∈ meetings f.type f'.type,
        ¬ Misleads n.info o.info new.scopes old.scopes p.1 p.2) ∧
      Follows new.scopes old.scopes n.info o.info new.env.classes old.env.classes κ f.type f'.type
  tag : ∀ s ∈ n.objects, s.isUnion = true → ∀ f ∈ s.members,
    IsIdentifier f.name ∧ f.name ≠ "setfield"

/-- Every file of the old release has been audited against one of the new release. -/
def Succeeds : Prop := ∀ o ∈ old.files, ∃ n ∈ new.files, Audited new old κ n o

variable {new old κ}

theorem built (r : Release) {p : Program} (hp : p ∈ r.files) : AllBuilt p := by
  obtain ⟨_, _, _, _, _, _, _, _, _, hparse, rfl⟩ := r.accepted p hp
  exact allBuilt_of_parse hparse

theorem distinct (r : Release) {p : Program} (hp : p ∈ r.files) : DistinctNames p := by
  obtain ⟨_, _, _, _, _, _, _, _, _, hparse, rfl⟩ := r.accepted p hp
  exact distinctNames_of_parse hparse

theorem keys_nodup (r : Release) {p : Program} (hp : p ∈ r.files) {s : TStruct}
    (hs : s ∈ p.objects) : (s.members.map fun f => f.key).Nodup :=
  (r.built hp s (List.mem_append_left _ hs)).keys_nodup

theorem Audited.object {n o : Program} (hn : n ∈ new.files) (ho : o ∈ old.files)
    (h : Audited new old κ n o) {s' : TStruct} (hs' : s' ∈ o.objects) :
    ∃ s ∈ n.objects, s.name = s'.name ∧ MembersKept s.members s'.members := by
  have hkept := (audit_clean (new.built hn) (old.built ho) (new.distinct hn)).mp h.clean
  cases hx : s'.isXception with
  | true =>
    obtain ⟨s, hs, hname, hmembers⟩ :=
      hkept.xceptions s' (List.mem_filter.mpr ⟨hs', by simpa using hx⟩)
    exact ⟨s, List.mem_of_mem_filter hs, hname, hmembers⟩
  | false =>
    obtain ⟨s, hs, hname, hmembers⟩ :=
      hkept.structs s' (List.mem_filter.mpr ⟨hs', by simpa using hx⟩)
    exact ⟨s, List.mem_of_mem_filter hs, hname, hmembers⟩

theorem Succeeds.evolves (h : Succeeds new old κ) :
    Evolves old.runtime.schema new.runtime.schema κ := by
  have hclass : ∀ klass, old.runtime.schema.Cached klass → ∃ o ∈ old.files, ∃ n ∈ new.files,
      Audited new old κ n o ∧ ∃ s' ∈ o.objects, ∃ s ∈ n.objects, s.name = s'.name ∧
        MembersKept s.members s'.members ∧
        (∃ c, ClassOf old.scopes old.fuel old.env old.runtime s' klass c) ∧
        ∃ c, ClassOf new.scopes new.fuel new.env new.runtime s (κ klass) c := by
    intro klass hcached
    obtain ⟨o, ho, s', hs', hnamed⟩ := old.covered klass hcached
    obtain ⟨n, hn, haudited⟩ := h o ho
    obtain ⟨s, hs, hname, hmembers⟩ := haudited.object hn ho hs'
    obtain ⟨klass', c', hc'⟩ := old.loaded o ho s' hs'
    obtain ⟨k, c, hc⟩ := new.loaded n hn s hs
    obtain rfl : klass = klass' := Option.some.inj (hnamed.symm.trans hc'.named)
    have hk := haudited.klass s hs s' hs' hname k klass hc.named hc'.named
    rw [← hk] at hc
    exact ⟨o, ho, n, hn, haudited, s', hs', s, hs, hname, hmembers, ⟨c', hc'⟩, c, hc⟩
  constructor
  · intro klass hcached
    obtain ⟨o, -, n, -, haudited, s', hs', s, hs, hname, -, ⟨c', hc'⟩, c, hc⟩ :=
      hclass klass hcached
    rw [Loading.schema_isUnion _ hc.found, Loading.schema_isUnion _ hc'.found, hc.isUnion,
      hc'.isUnion]
    exact haudited.kind s hs s' hs' hname
  · intro klass fields hf
    have hcached : old.runtime.schema.Cached klass := by simp [Schema.Cached, hf]
    obtain ⟨o, ho, n, hn, haudited, s', hs', s, hs, hname, hkept, ⟨c', hc'⟩, c, hc⟩ :=
      hclass klass hcached
    have hnodup := new.keys_nodup hn hs
    obtain ⟨fields₁, hf₁, hold⟩ := tableOf_class (old.keys_nodup ho hs') (old.fits o ho s' hs') hc'
    obtain rfl : fields = fields₁ := Option.some.inj (hf.symm.trans hf₁)
    obtain ⟨fields', hf', hnew⟩ := tableOf_class hnodup (new.fits n hn s hs) hc
    refine ⟨fields', hf', fun e he fi' hfi' => ?_, fun hunion e he => ?_⟩
    · obtain ⟨f', hmem', hid', hinfo'⟩ := hold.entry e he
      obtain ⟨f, hmem, hid, hinfo⟩ := hnew.entry _ ((fields'.find?_eq_some_iff e.1 fi').mp hfi')
      have hkey : f.key = f'.key := (wireId_inj (new.fits n hn s hs f hmem)
        (old.fits o ho s' hs' f' hmem')).mp (hid.symm.trans hid')
      obtain ⟨g, hg, hgkey, halike, -⟩ := hkept.kept f' hmem'
      obtain rfl : g = f := List.inj_on_of_nodup_map hnodup hg hmem (hgkey.trans hkey.symm)
      obtain ⟨hmisleads, hfollows⟩ := haudited.honest s hs s' hs' hname g hmem f' hmem' hkey
      have hsame : SameType new.scopes old.scopes n.info o.info g.type f'.type := by
        rw [sameType_iff]
        intro p hp
        by_contra hnot
        have hleaf : IsLeaf p.1 p.2 := isLeaf_of_meeting _ _ p hp
        exact hmisleads p hp ((misleads_iff hleaf).mpr ⟨halike p hp, hnot⟩)
      exact sameWire_of_sameType hsame hfollows hinfo'.mirrors hinfo.mirrors
    · obtain ⟨f', hmem', hid', -⟩ := hold.entry e he
      obtain ⟨g, hg, hgkey, -, -⟩ := hkept.kept f' hmem'
      obtain ⟨fi', hfi', hinfo⟩ := hnew.member g hg
      have hunion' : s.isUnion = true := by
        rw [Loading.schema_isUnion _ hc'.found, hc'.isUnion] at hunion
        exact (haudited.kind s hs s' hs' hname).trans hunion
      obtain ⟨hident, htag⟩ := haudited.tag s hs hunion' g hg
      refine ⟨fi', ?_, ?_⟩
      · have hwire : wireId g = wireId f' := (wireId_inj (new.fits n hn s hs g hg)
          (old.fits o ho s' hs' f' hmem')).mpr hgkey
        rw [hid', ← hwire]
        exact hfi'
      · rw [memberInfo_symName hinfo hident]
        exact htag

/-- What a class of the old release writes, the class of the same name in the new
    release reads, with the values of the members under their ids. -/
theorem clean_audit_reads {σ : Type} (P : TProtocol σ) (hP : P.Inverse) (hframed : P.Framed)
    (new old : Release) (κ : VALUE → VALUE) (h : Succeeds new old κ)
    (hnames : Unshadowed new.runtime.schema) (oid : ℕ) (klass : VALUE) (eigen : Bool)
    (ivars : List (ID × Value)) (hk : old.runtime.schema.Cached klass)
    (ho : Ordinary old.runtime.schema (classInfo klass) (.obj oid klass eigen ivars))
    (bytes : List UInt8)
    (hs : serialize P old.runtime.schema (.obj oid klass eigen ivars) = .ok bytes) :
    ∃ N, ∀ n, N ≤ n → ∃ y st, deserialize P new.runtime.schema n (κ klass) bytes = .ok y st ∧
      Carries old.runtime.schema new.runtime.schema (newIvar new.runtime.schema) (classInfo klass)
        (classInfo (κ klass)) (.obj oid klass eigen ivars) y := by
  obtain ⟨hc, rfl⟩ := serialize_encode P hk hs
  exact deserialize_wireOf P hP hframed hnames h.evolves hk hc ho

end Release

section Examples
open BinaryProtocol

def soleEnvironment (s : TStruct) : Environment where
  classes path := if path = classPath s then some 8 else none
  enumModules _ := some .nil
  isUnion _ := false
  double _ := none
  new _ _ := none

theorem soleEnvironment_class (s : TStruct) :
    (soleEnvironment s).classes (classPath s) = some 8 := if_pos rfl

def evaluatedFields (s : TStruct) : Option (List (Value × Value)) :=
  match generateFieldDefns (fun _ => {}) 1 s with
  | .error _ => none
  | .ok lit =>
    match (soleEnvironment s).eval lit with
    | some (.hash defs) => some defs
    | _ => none

theorem fields_of_evaluated {s : TStruct} {defs : List (Value × Value)}
    (h : evaluatedFields s = some defs) : ∃ lit, generateFieldDefns (fun _ => {}) 1 s = .ok lit ∧
      (soleEnvironment s).eval lit = some (.hash defs) := by
  unfold evaluatedFields at h
  split at h
  · cases h
  rename_i lit hlit
  split at h
  · rename_i defs' hdefs
    obtain rfl := Option.some.inj h
    exact ⟨lit, hlit, hdefs⟩
  · cases h

def superclassOf (s : TStruct) : Superclass :=
  if s.isUnion then .union else if s.isXception then .applicationException else .struct

theorem superclassOf_union (s : TStruct) : decide (superclassOf s = .union) = s.isUnion := by
  unfold superclassOf
  cases s.isUnion <;> cases s.isXception <;> rfl

/-- A release of one file with one struct. -/
def soleRelease (p : Program) (s : TStruct) (haccepted : Accepted p) (hobjects : p.objects = [s])
    (hfits : ∀ f ∈ s.members, Fits f) (fields : List (Value × Value))
    (hfields : evaluatedFields s = some fields) (runtime : Loading.Program)
    (hdefs : runtime.defs = [(8, ⟨s.name, superclassOf s, fields⟩)]) : Release where
  files := [p]
  scopes := fun _ => {}
  fuel := 1
  env := soleEnvironment s
  runtime := runtime
  accepted q hq := by
    rw [List.mem_singleton.mp hq]
    exact haccepted
  fits q hq t ht := by
    rw [List.mem_singleton.mp hq, hobjects, List.mem_singleton] at ht
    rw [ht]
    exact hfits
  loaded q hq t ht := by
    rw [List.mem_singleton.mp hq, hobjects, List.mem_singleton] at ht
    rw [ht]
    refine ⟨8, ⟨s.name, superclassOf s, fields⟩, soleEnvironment_class s, ?_, superclassOf_union s,
      fields_of_evaluated hfields⟩
    rw [Loading.Program.findClass, hdefs]
    rfl
  covered klass hk := by
    have hmem := (Loading.schema_cached_iff runtime klass).mp hk
    rw [hdefs] at hmem
    refine ⟨p, by simp, s, by rw [hobjects]; simp, ?_⟩
    have hklass : klass = 8 := by simpa using hmem
    rw [hklass]
    exact soleEnvironment_class s

def deepPixel : TStruct where
  program := aThrift
  name := "Pixel"
  members := [{
      type := .baseType .TYPE_I32 false
      name := "depth"
      key := 1
      req := .T_OPT_IN_REQ_OUT
      value := some { valType := .CV_INTEGER, intVal := 8 } },
    { type := .enum ⟨aThrift, "Color", [⟨"RED", 1⟩, ⟨"GREEN", 2⟩, ⟨"BLUE", 4⟩]⟩
      name := "tint"
      key := 2
      req := .T_OPTIONAL }]

def pixel : TStruct where
  program := aThrift
  name := "Pixel"
  members := [{
    type := .baseType .TYPE_I32 false
    name := "depth"
    key := 1
    req := .T_OPT_IN_REQ_OUT
    value := some { valType := .CV_INTEGER, intVal := 8 } }]

def deepPixelsProgram : Program where
  info := aThrift
  enums := [⟨aThrift, "Color", [⟨"RED", 1⟩, ⟨"GREEN", 2⟩, ⟨"BLUE", 4⟩]⟩]
  objects := [deepPixel]

def pixelRuntime : Loading.Program where
  defs := [(8, ⟨"Pixel", .struct, (evaluatedFields pixel).getD []⟩)]
  globals := (Loading.loadClasses [(8, ⟨"Pixel", .struct, (evaluatedFields pixel).getD []⟩)]).get
    (by decide +kernel)
  loads := (Option.some_get _).symm
  loaded := by decide +kernel

def deepPixelRuntime : Loading.Program where
  defs := [(8, ⟨"Pixel", .struct, (evaluatedFields deepPixel).getD []⟩)]
  globals :=
    (Loading.loadClasses [(8, ⟨"Pixel", .struct, (evaluatedFields deepPixel).getD []⟩)]).get
    (by decide +kernel)
  loads := (Option.some_get _).symm
  loaded := by decide +kernel

theorem accepted_pixels : Accepted pixelsProgram := by
  obtain ⟨pass, hpass, hprogram⟩ := parse_pixels
  exact ⟨_, _, _, _, _, _, _, _, pass, hpass, hprogram⟩

theorem accepted_deepPixels : Accepted deepPixelsProgram := by
  have hparse : ∃ pass, parseAlone deepPixels = .ok pass ∧ pass.program = deepPixelsProgram :=
    ⟨_, rfl, rfl⟩
  obtain ⟨pass, hpass, hprogram⟩ := hparse
  exact ⟨_, _, _, _, _, _, _, _, pass, hpass, hprogram⟩

theorem some_getD_of_isSome {α : Type} {o : Option α} (h : o.isSome = true) (a : α) :
    o = some (o.getD a) := by
  cases o with
  | none => cases h
  | some b => rfl

theorem pixel_fits : ∀ f ∈ pixel.members, Fits f := by simp [pixel, Fits]

theorem deepPixel_fits : ∀ f ∈ deepPixel.members, Fits f := by simp [deepPixel, Fits]

def oldPixels : Release :=
  soleRelease pixelsProgram pixel accepted_pixels rfl pixel_fits _
    (some_getD_of_isSome (by decide +kernel) []) pixelRuntime rfl

def newPixels : Release :=
  soleRelease deepPixelsProgram deepPixel accepted_deepPixels rfl deepPixel_fits _
    (some_getD_of_isSome (by decide +kernel) []) deepPixelRuntime rfl

theorem not_typeRefers_base {scopes : String → Scope} {b : TBase} {bin : Bool} {s : TStruct} :
    ¬ TypeRefers scopes (.baseType b bin) s := by
  have hself : Expands scopes (.baseType b bin) (.baseType b bin) := expands_self rfl
  intro h
  cases h with
  | struct h | list h | set h | key h | value h => cases hself.unique h

theorem newPixels_succeeds : Release.Succeeds newPixels oldPixels id := by
  intro o ho
  obtain rfl : o = pixelsProgram := List.mem_singleton.mp ho
  refine ⟨deepPixelsProgram, by exact List.mem_singleton.mpr rfl, ?_⟩
  have hn : ∀ s ∈ deepPixelsProgram.objects, s = deepPixel := fun s hs => List.mem_singleton.mp hs
  have ho : ∀ s ∈ pixelsProgram.objects, s = pixel := fun s hs => List.mem_singleton.mp hs
  refine ⟨?_, ?_, ?_, ?_, ?_⟩
  · have hreports : audit deepPixelsProgram pixelsProgram = [] := by decide +kernel
    rw [hreports]
    exact returnFailure_nil
  · intro s hs s' hs' _
    rw [hn s hs, ho s' hs']
    rfl
  · intro s hs s' hs' _ k k' hk hk'
    rw [hn s hs] at hk
    rw [ho s' hs'] at hk'
    rw [← Option.some.inj ((soleEnvironment_class deepPixel).symm.trans hk),
      ← Option.some.inj ((soleEnvironment_class pixel).symm.trans hk')]
    rfl
  · intro s hs s' hs' _ f hf f' hf' hkey
    rw [hn s hs] at hf
    rw [ho s' hs'] at hf'
    obtain rfl := List.mem_singleton.mp hf'
    rcases List.mem_cons.mp hf with rfl | hf
    · constructor
      · rintro p hp ⟨-, hdiffer⟩
        rw [List.mem_singleton.mp hp] at hdiffer
        exact hdiffer rfl
      · exact fun s s' k k' h => absurd h not_typeRefers_base
    · obtain rfl := List.mem_singleton.mp hf
      exact absurd hkey (by decide)
  · intro s hs hunion
    rw [hn s hs] at hunion
    cases hunion

/-- A `Pixel` of the old release, read by the new one. -/
theorem newPixels_read : ∃ bytes,
    serialize binaryProtocol oldPixels.runtime.schema (.obj 0 8 false [("@depth", .int 24)]) =
      .ok bytes ∧
    ∃ N, ∀ n, N ≤ n → ∃ y st,
      deserialize binaryProtocol newPixels.runtime.schema n 8 bytes = .ok y st ∧
      Carries oldPixels.runtime.schema newPixels.runtime.schema
        (newIvar newPixels.runtime.schema) (classInfo 8) (classInfo 8)
        (.obj 0 8 false [("@depth", .int 24)]) y := by
  have hnames : Unshadowed newPixels.runtime.schema :=
    Loading.unshadowed_of_defs deepPixelRuntime (by decide +kernel)
  have hok : (serialize binaryProtocol oldPixels.runtime.schema
      (.obj 0 8 false [("@depth", .int 24)])).toBool = true := by decide +kernel
  have ho : isOrdinary oldPixels.runtime.schema (classInfo 8)
      (.obj 0 8 false [("@depth", .int 24)]) = true := by decide +kernel
  cases h : serialize binaryProtocol oldPixels.runtime.schema
      (.obj 0 8 false [("@depth", .int 24)]) with
  | error e =>
    rw [h] at hok
    cases hok
  | ok bytes =>
    exact ⟨bytes, rfl, Release.clean_audit_reads binaryProtocol binaryProtocol_inverse
      binaryProtocol_framed newPixels oldPixels id newPixels_succeeds hnames 0 8
      false [("@depth", .int 24)] (by decide +kernel) (ordinary_of_isOrdinary _ _ ho) bytes h⟩

end Examples

end Sparsam.WireCompatibility
