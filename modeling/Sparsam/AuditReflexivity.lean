import Mathlib.Data.List.Forall2
import Mathlib.Data.List.Perm.Basic
import Sparsam.Audit
import Sparsam.FieldLists
import Sparsam.ListPairing
import Sparsam.ProgramNames

set_option autoImplicit false

/-!
# Auditing a file against itself

Two parses of one file differ in their addresses, and so in the order in which
they walk the entries of a map constant. `CopyOf` relates a program with what
another parse made of the same file.
-/
namespace Sparsam.AuditReflexivity
open ListPairing ThriftTypes ThriftScope ThriftParser FieldLists ProgramNames Audit

/-- The same value, with the entries of its maps in any order. -/
inductive Reordered : ConstValue → ConstValue → Prop where
  | mk {t : CV} {es es' es'' : List (ConstValue × ConstValue)} {xs xs' : List ConstValue}
      {s : String} {n : Int64} {d : UInt64} {i : String} {e : Option TEnum} (hperm : es.Perm es')
      (hkeys : List.Forall₂ (fun a b => Reordered a.1 b.1) es' es'')
      (hvals : List.Forall₂ (fun a b => Reordered a.2 b.2) es' es'')
      (helems : List.Forall₂ Reordered xs xs') :
      Reordered ⟨t, es, xs, s, n, d, i, e⟩ ⟨t, es'', xs', s, n, d, i, e⟩

structure FieldCopy (f f' : TField) : Prop where
  name : f'.name = f.name
  key : f'.key = f.key
  req : f'.req = f.req
  value : Option.Rel Reordered f.value f'.value
  annotations : f'.annotations = f.annotations
  doc : f'.doc = f.doc

structure StructCopy (s s' : TStruct) : Prop where
  program : s'.program = s.program
  name : s'.name = s.name
  members : List.Forall₂ FieldCopy s.members s'.members
  isXception : s'.isXception = s.isXception
  isUnion : s'.isUnion = s.isUnion
  membersValidated : s'.membersValidated = s.membersValidated
  membersWithValue : s'.membersWithValue = s.membersWithValue

inductive TypeCopy : ThriftType → ThriftType → Prop where
  | baseType {base : TBase} {bin : Bool} : TypeCopy (.baseType base bin) (.baseType base bin)
  | enum {e : TEnum} : TypeCopy (.enum e) (.enum e)
  | struct {s s' : TStruct} (h : StructCopy s s')
      (htypes : List.Forall₂ (fun f f' => TypeCopy f.type f'.type) s.members s'.members) :
      TypeCopy (.struct s) (.struct s')
  | list {t t' : ThriftType} (h : TypeCopy t t') : TypeCopy (.list t) (.list t')
  | set {t t' : ThriftType} (h : TypeCopy t t') : TypeCopy (.set t) (.set t')
  | map {k k' v v' : ThriftType} (hk : TypeCopy k k') (hv : TypeCopy v v') :
      TypeCopy (.map k v) (.map k' v')
  | typedef {p : TProgram} {name : String} {t t' : ThriftType} (h : TypeCopy t t') :
      TypeCopy (.typedef p name t) (.typedef p name t')
  | forwardTypedef {p : TProgram} {name : String} :
      TypeCopy (.forwardTypedef p name) (.forwardTypedef p name)

structure ConstCopy (c c' : TConst) : Prop where
  type : TypeCopy c.type c'.type
  name : c'.name = c.name
  value : Reordered c.value c'.value

structure FunctionCopy (f f' : TFunction) : Prop where
  returntype : TypeCopy f.returntype f'.returntype
  name : f'.name = f.name
  arglist : TypeCopy (.struct f.arglist) (.struct f'.arglist)
  xceptions : TypeCopy (.struct f.xceptions) (.struct f'.xceptions)
  oneway : f'.oneway = f.oneway

structure ServiceCopy (s s' : TService) : Prop where
  program : s'.program = s.program
  name : s'.name = s.name
  functions : List.Forall₂ FunctionCopy s.functions s'.functions
  extends_ : s'.extends_ = s.extends_

/-- What another parse of the same file may make of it. -/
structure CopyOf (p p' : Program) : Prop where
  info : p'.info = p.info
  typedefs : List.Forall₂ (fun a b => b.1 = a.1 ∧ TypeCopy a.2 b.2) p.typedefs p'.typedefs
  enums : p'.enums = p.enums
  consts : List.Forall₂ ConstCopy p.consts p'.consts
  objects : List.Forall₂ (fun s s' => TypeCopy (.struct s) (.struct s')) p.objects p'.objects
  services : List.Forall₂ ServiceCopy p.services p'.services

/-- Values that are equal for `compare_defaults` in whatever order their maps are. -/
inductive Agree : ConstValue → ConstValue → Prop where
  | integer {v w : ConstValue} (hv : v.valType = .CV_INTEGER) (hw : w.valType = .CV_INTEGER)
      (h : v.intVal = w.intVal) : Agree v w
  | double {v w : ConstValue} (hv : v.valType = .CV_DOUBLE) (hw : w.valType = .CV_DOUBLE)
      (h : doubleEq v.doubleVal w.doubleVal = true) : Agree v w
  | string {v w : ConstValue} (hv : v.valType = .CV_STRING) (hw : w.valType = .CV_STRING)
      (h : v.stringVal = w.stringVal) : Agree v w
  | identifier {v w : ConstValue} (hv : v.valType = .CV_IDENTIFIER)
      (hw : w.valType = .CV_IDENTIFIER) (h : v.identifierVal = w.identifierVal) : Agree v w
  | list {v w : ConstValue} (hv : v.valType = .CV_LIST) (hw : w.valType = .CV_LIST)
      (h : List.Forall₂ Agree v.listVal w.listVal) : Agree v w
  | map {v w : ConstValue} (hv : v.valType = .CV_MAP) (hw : w.valType = .CV_MAP)
      (hlen : v.mapVal.length = w.mapVal.length)
      (hkeys : ∀ a ∈ v.mapVal, ∀ b ∈ w.mapVal, Agree a.1 b.1)
      (hvals : ∀ a ∈ v.mapVal, ∀ b ∈ w.mapVal, Agree a.2 b.2) : Agree v w

section Values

theorem equalElems_iff {xs ys : List ConstValue} :
    (ys.length == xs.length && equalElems xs ys) = true ↔
      List.Forall₂ (fun x y => compareValues x y = true) xs ys := by
  induction xs generalizing ys with
  | nil =>
    unfold equalElems
    cases ys <;> simp
  | cons x xs ih =>
    cases ys with
    | nil => simp
    | cons y ys =>
      unfold equalElems
      rw [List.forall₂_cons, ← ih]
      simp only [List.length_cons, Bool.and_eq_true, beq_iff_eq, Nat.add_right_cancel_iff]
      tauto

theorem equalEntries_iff {es fs : List (ConstValue × ConstValue)} :
    (fs.length == es.length && equalEntries es fs) = true ↔
      List.Forall₂ (fun a b => compareValues a.1 b.1 = true ∧ compareValues a.2 b.2 = true)
        es fs := by
  induction es generalizing fs with
  | nil =>
    unfold equalEntries
    cases fs <;> simp
  | cons a es ih =>
    cases fs with
    | nil => simp
    | cons b fs =>
      unfold equalEntries
      rw [List.forall₂_cons, ← ih]
      simp only [List.length_cons, Bool.and_eq_true, beq_iff_eq, Nat.add_right_cancel_iff]
      tauto

theorem Reordered.refl (v : ConstValue) : Reordered v v := by
  induction v using ConstValue.induct with
  | mk v ihmap ihlist =>
    obtain ⟨t, es, xs, s, n, d, i, e⟩ := v
    exact .mk (.refl es) (List.forall₂_same.mpr fun a ha => (ihmap a ha).1)
      (List.forall₂_same.mpr fun a ha => (ihmap a ha).2) (List.forall₂_same.mpr ihlist)

theorem mem_of_reordered {es es' es'' : List (ConstValue × ConstValue)} (hperm : es.Perm es')
    (hkeys : List.Forall₂ (fun a b => Reordered a.1 b.1) es' es'')
    (hvals : List.Forall₂ (fun a b => Reordered a.2 b.2) es' es'') {b : ConstValue × ConstValue}
    (hb : b ∈ es'') : ∃ a ∈ es, Reordered a.1 b.1 ∧ Reordered a.2 b.2 := by
  obtain ⟨a, ha, hr⟩ := mem_of_forall₂ (forall₂_and hkeys hvals) hb
  exact ⟨a, hperm.mem_iff.mpr ha, hr⟩

/-- Whatever the order in both. -/
def AlwaysEqual (v w : ConstValue) : Prop :=
  ∀ v' w', Reordered v v' → Reordered w w' → compareValues v' w' = true

theorem elems_alwaysEqual {xs ys xs' ys' : List ConstValue}
    (ih : ∀ x ∈ xs, ∀ y, Agree x y → AlwaysEqual x y) (h : List.Forall₂ Agree xs ys)
    (hx : List.Forall₂ Reordered xs xs') (hy : List.Forall₂ Reordered ys ys') :
    List.Forall₂ (fun x y => compareValues x y = true) xs' ys' := by
  induction h generalizing xs' ys' with
  | nil =>
    cases hx
    cases hy
    exact .nil
  | @cons x y xs ys hxy _ ihrest =>
    cases hx with
    | cons hxx hx =>
      cases hy with
      | cons hyy hy =>
        exact .cons (ih x (by simp) y hxy _ _ hxx hyy)
          (ihrest (fun z hz => ih z (by simp [hz])) hx hy)

theorem Agree.alwaysEqual {v w : ConstValue} (h : Agree v w) : AlwaysEqual v w := by
  induction v using ConstValue.induct generalizing w with
  | mk v ihmap ihlist =>
    rintro v' w' ⟨hperm, hkeys, hvals, helems⟩ ⟨hperm', hkeys', hvals', helems'⟩
    unfold compareValues
    cases h with
    | integer hv hw h =>
      cases hv
      cases hw
      simpa using h
    | double hv hw h =>
      cases hv
      cases hw
      simpa using h
    | string hv hw h =>
      cases hv
      cases hw
      simpa using h
    | identifier hv hw h =>
      cases hv
      cases hw
      simpa using h
    | list hv hw h =>
      cases hv
      cases hw
      rw [if_neg (by simp)]
      exact equalElems_iff.mpr
        (elems_alwaysEqual (fun x hx y hxy => ihlist x hx hxy) h helems helems')
    | map hv hw hlen hk hval =>
      cases hv
      cases hw
      rw [if_neg (by simp)]
      refine equalEntries_iff.mpr (forall₂_of_all ?_ ?_)
      · rw [← hkeys.length_eq, ← hkeys'.length_eq, ← hperm.length_eq, ← hperm'.length_eq]
        exact hlen
      · intro a ha b hb
        obtain ⟨a', ha', hak, hav⟩ := mem_of_reordered hperm hkeys hvals ha
        obtain ⟨b', hb', hbk, hbv⟩ := mem_of_reordered hperm' hkeys' hvals' hb
        exact ⟨(ihmap a' ha').1 (hk a' ha' b' hb') _ _ hak hbk,
          (ihmap a' ha').2 (hval a' ha' b' hb') _ _ hav hbv⟩

theorem agree_elems {xs ys : List ConstValue} (ih : ∀ x ∈ xs, ∀ y, AlwaysEqual x y → Agree x y)
    (h : ∀ xs' ys', List.Forall₂ Reordered xs xs' → List.Forall₂ Reordered ys ys' →
      List.Forall₂ (fun x y => compareValues x y = true) xs' ys') : List.Forall₂ Agree xs ys := by
  have hrefl : ∀ zs : List ConstValue, List.Forall₂ Reordered zs zs :=
    fun zs => List.forall₂_same.mpr fun z _ => .refl z
  induction xs generalizing ys with
  | nil =>
    cases h [] ys .nil (hrefl ys)
    exact .nil
  | cons x xs ihxs =>
    cases ys with
    | nil => cases h (x :: xs) [] (hrefl _) .nil
    | cons y ys =>
      refine .cons (ih x (by simp) y fun x' y' hx hy => ?_)
        (ihxs (fun z hz => ih z (by simp [hz])) fun xs' ys' hxs hys => ?_)
      · exact (List.forall₂_cons.mp (h _ _ (.cons hx (hrefl xs)) (.cons hy (hrefl ys)))).1
      · exact (List.forall₂_cons.mp (h _ _ (.cons (.refl x) hxs) (.cons (.refl y) hys))).2

theorem reordered_first {t : CV} {es : List (ConstValue × ConstValue)} {xs : List ConstValue}
    {s : String} {n : Int64} {d : UInt64} {i : String} {e : Option TEnum}
    {a : ConstValue × ConstValue} (ha : a ∈ es) {k v : ConstValue} (hk : Reordered a.1 k)
    (hv : Reordered a.2 v) :
    ∃ rest, Reordered ⟨t, es, xs, s, n, d, i, e⟩ ⟨t, (k, v) :: rest, xs, s, n, d, i, e⟩ := by
  obtain ⟨before, after, rfl⟩ := List.append_of_mem ha
  refine ⟨before ++ after, .mk List.perm_middle ?_ ?_ ?_⟩
  · exact .cons hk (List.forall₂_same.mpr fun b _ => .refl b.1)
  · exact .cons hv (List.forall₂_same.mpr fun b _ => .refl b.2)
  · exact List.forall₂_same.mpr fun x _ => .refl x

theorem AlwaysEqual.agree {v w : ConstValue} (h : AlwaysEqual v w) : Agree v w := by
  induction v using ConstValue.induct generalizing w with
  | mk v ihmap ihlist =>
    obtain ⟨t, es, xs, s, n, d, i, e⟩ := v
    obtain ⟨t', es', xs', s', n', d', i', e'⟩ := w
    have hsame := h _ _ (.refl _) (.refl _)
    unfold compareValues at hsame
    have ht : t = t' := by
      by_contra hne
      rw [if_pos hne] at hsame
      cases hsame
    subst ht
    rw [if_neg (by simp)] at hsame
    cases t with
    | CV_INTEGER => exact .integer rfl rfl (by simpa using hsame)
    | CV_DOUBLE => exact .double rfl rfl hsame
    | CV_STRING => exact .string rfl rfl (by simpa using hsame)
    | CV_IDENTIFIER => exact .identifier rfl rfl (by simpa using hsame)
    | CV_LIST =>
      refine .list rfl rfl (agree_elems (fun x hx y hxy => ihlist x hx hxy) ?_)
      intro zs zs' hzs hzs'
      have hall := h _ _ (.mk (.refl es) (List.forall₂_same.mpr fun b _ => .refl b.1)
        (List.forall₂_same.mpr fun b _ => .refl b.2) hzs) (.mk (.refl es')
        (List.forall₂_same.mpr fun b _ => .refl b.1) (List.forall₂_same.mpr fun b _ => .refl b.2)
        hzs')
      unfold compareValues at hall
      rw [if_neg (by simp)] at hall
      exact equalElems_iff.mp hall
    | CV_MAP =>
      have hlen := (equalEntries_iff.mp hsame).length_eq
      have hpair : ∀ a ∈ es, ∀ b ∈ es', ∀ k v k' v', Reordered a.1 k → Reordered a.2 v →
          Reordered b.1 k' → Reordered b.2 v' →
            compareValues k k' = true ∧ compareValues v v' = true := by
        intro a ha b hb k v k' v' hk hv hk' hv'
        obtain ⟨rest, hrest⟩ : ∃ rest, Reordered ⟨.CV_MAP, es, xs, s, n, d, i, e⟩
            ⟨.CV_MAP, (k, v) :: rest, xs, s, n, d, i, e⟩ := reordered_first ha hk hv
        obtain ⟨rest', hrest'⟩ : ∃ rest', Reordered ⟨.CV_MAP, es', xs', s', n', d', i', e'⟩
            ⟨.CV_MAP, (k', v') :: rest', xs', s', n', d', i', e'⟩ := reordered_first hb hk' hv'
        have hall := h _ _ hrest hrest'
        unfold compareValues at hall
        rw [if_neg (by simp)] at hall
        exact (List.forall₂_cons.mp (equalEntries_iff.mp hall)).1
      refine .map rfl rfl hlen ?_ ?_
      · intro a ha b hb
        refine (ihmap a ha).1 fun k k' hk hk' => ?_
        exact (hpair a ha b hb k a.2 k' b.2 hk (.refl _) hk' (.refl _)).1
      · intro a ha b hb
        refine (ihmap a ha).2 fun v v' hv hv' => ?_
        exact (hpair a ha b hb a.1 v b.1 v' (.refl _) hv (.refl _) hv').2

/-- `Agree` is what `compare_defaults` cannot be led to deny by the addresses. -/
theorem agree_iff {v w : ConstValue} : Agree v w ↔ AlwaysEqual v w :=
  ⟨Agree.alwaysEqual, AlwaysEqual.agree⟩

end Values

section Diagonal

theorem byName_eq_none {α : Type} {name : α → String} {defs : List α} {key : String}
    (h : ∀ d ∈ defs, name d ≠ key) : byName name defs key = none := by
  unfold byName
  induction defs with
  | nil => rfl
  | cons d defs ih =>
    rw [List.foldl_cons, if_neg (h d (by simp))]
    exact ih fun d' hd' => h d' (by simp [hd'])

theorem byName_append {α : Type} {name : α → String} (defs defs' : List α) (key : String) :
    byName name (defs ++ defs') key = (byName name defs' key).or (byName name defs key) := by
  have hfold : ∀ (ds : List α) (found : Option α),
      ds.foldl (fun found d => if name d = key then some d else found) found =
        (byName name ds key).or found := by
    intro ds
    unfold byName
    induction ds with
    | nil => exact fun found => by simp
    | cons d ds ih =>
      intro found
      rw [List.foldl_cons, List.foldl_cons, ih, ih (if name d = key then some d else none)]
      split <;> simp
  unfold byName
  rw [List.foldl_append, hfold]
  rfl

theorem byName_of_mem {α : Type} {name : α → String} {defs : List α}
    (hnodup : (defs.map name).Nodup) {d : α} (hd : d ∈ defs) :
    byName name defs (name d) = some d := by
  obtain ⟨before, after, rfl⟩ := List.append_of_mem hd
  rw [List.map_append, List.map_cons] at hnodup
  have hafter : byName name after (name d) = none := by
    refine byName_eq_none fun d' hd' heq => ?_
    exact (List.nodup_cons.mp (List.nodup_append.mp hnodup).2.1).1
      (heq ▸ List.mem_map_of_mem hd')
  have hcons : d :: after = [d] ++ after := rfl
  rw [hcons, byName_append, byName_append, hafter]
  simp [byName]

theorem compareByName_nil {α : Type} {name : α → String} {missing : String → Report}
    {compare : α → α → List Report} {new old : List α}
    (hnames : List.Forall₂ (fun n o => name n = name o) new old)
    (hnodup : (new.map name).Nodup) :
    compareByName name missing compare new old = [] ↔
      List.Forall₂ (fun n o => compare n o = []) new old := by
  have hpart : ∀ news olds : List α, List.Forall₂ (fun n o => name n = name o) news olds →
      (∀ n ∈ news, n ∈ new) → (compareByName name missing compare new olds = [] ↔
        List.Forall₂ (fun n o => compare n o = []) news olds) := by
    intro news olds h hsub
    induction h with
    | nil => simp [compareByName]
    | @cons n o news olds hno _ ih =>
      rw [List.forall₂_cons, ← ih fun m hm => hsub m (by simp [hm]), compareByName,
        List.flatMap_cons, List.append_eq_nil_iff, ← hno, byName_of_mem hnodup (hsub n (by simp))]
      rfl
  exact hpart new old hnames fun n hn => hn

theorem compareMembers_nil {structName : String} {news olds : List TField}
    (h : List.Forall₂ (fun n o : TField => n.key = o.key) news olds) :
    compareMembers structName news olds = [] ↔
      List.Forall₂ (fun n o => compareStructField n o structName = []) news olds := by
  induction h with
  | nil => simp [compareMembers]
  | cons hkey _ ih =>
    unfold compareMembers
    rw [if_pos hkey, List.append_eq_nil_iff, ih, List.forall₂_cons]

theorem insertInIdOrder_forall₂ {R : TField → TField → Prop}
    (hkey : ∀ f f', R f f' → f'.key = f.key) {f f' : TField} {fs fs' : List TField} (h : R f f')
    (hfs : List.Forall₂ R fs fs') :
    List.Forall₂ R (TStructOf.insertInIdOrder f fs) (TStructOf.insertInIdOrder f' fs') := by
  induction hfs with
  | nil => exact .cons h .nil
  | cons hg hgs ih =>
    unfold TStructOf.insertInIdOrder
    rw [hkey _ _ h, hkey _ _ hg]
    split
    · exact .cons h (.cons hg hgs)
    · exact .cons hg ih

theorem sortedMembers_forall₂ {R : TField → TField → Prop}
    (hkey : ∀ f f', R f f' → f'.key = f.key) {s s' : TStruct}
    (h : List.Forall₂ R s.members s'.members) :
    List.Forall₂ R s.sortedMembers s'.sortedMembers := by
  have hfold : ∀ fs fs' acc acc' : List TField, List.Forall₂ R fs fs' → List.Forall₂ R acc acc' →
      List.Forall₂ R (fs.foldl (fun sorted f => TStructOf.insertInIdOrder f sorted) acc)
        (fs'.foldl (fun sorted f => TStructOf.insertInIdOrder f sorted) acc') := by
    intro fs fs' acc acc' hfs hacc
    induction hfs generalizing acc acc' with
    | nil => exact hacc
    | cons hf _ ih => exact ih _ _ (insertInIdOrder_forall₂ hkey hf hacc)
  exact hfold _ _ _ _ h .nil

/-- No name inside the type is empty; the lexer reads no empty identifier. -/
def Named : ThriftType → Prop
  | .list t | .set t => Named t
  | .map k v => Named k ∧ Named v
  | t => t.getName ≠ ""

theorem TypeCopy.getName {t t' : ThriftType} (h : TypeCopy t t') : t'.getName = t.getName := by
  cases h with
  | struct h => exact h.name
  | _ => rfl

theorem compareType_copies {t a b : ThriftType} (ht : Named t) (ha : TypeCopy t a)
    (hb : TypeCopy t b) : compareType a b = true := by
  have hleaf : ∀ name : String, name ≠ "" →
      (if name = "" ∧ name = "" then false else name == name) = true := by
    intro name hname
    rw [if_neg fun h => hname h.1]
    exact beq_self_eq_true name
  induction t generalizing a b with
  | baseType =>
    cases ha
    cases hb
    exact hleaf _ ht
  | enum =>
    cases ha
    cases hb
    exact hleaf _ ht
  | struct =>
    cases ha with
    | struct ha =>
      cases hb with
      | struct hb =>
        unfold compareType
        rw [show ThriftType.getName (.struct _) = _ from ha.name,
          show ThriftType.getName (.struct _) = _ from hb.name]
        exact hleaf _ ht
  | list t ih =>
    cases ha with
    | list ha =>
      cases hb with
      | list hb =>
        unfold compareType
        exact ih ht ha hb
  | set t ih =>
    cases ha with
    | set ha =>
      cases hb with
      | set hb =>
        unfold compareType
        exact ih ht ha hb
  | map k v ihk ihv =>
    cases ha with
    | map hak hav =>
      cases hb with
      | map hbk hbv =>
        unfold compareType
        rw [ihk ht.1 hak hbk, ihv ht.2 hav hbv]
        rfl
  | typedef =>
    cases ha
    cases hb
    exact hleaf _ ht
  | forwardTypedef =>
    cases ha
    cases hb
    exact hleaf _ ht

theorem compareStructField_copies {f n o : TField} {structName : String} (ht : Named f.type)
    (hn : FieldCopy f n ∧ TypeCopy f.type n.type) (ho : FieldCopy f o ∧ TypeCopy f.type o.type) :
    compareStructField n o structName = [] ↔
      (f.req ≠ .T_REQUIRED → compareDefaults n.value o.value = true) := by
  unfold compareStructField
  rw [compareType_copies ht hn.2 ho.2, hn.1.req, ho.1.req, hn.1.name, ho.1.name]
  simp only [if_true, List.nil_append, List.append_nil, or_self, decide_eq_true_eq]
  split
  · rename_i hreq
    split
    · rename_i heq
      exact ⟨fun _ _ => heq, fun _ => rfl⟩
    · rename_i heq
      exact ⟨fun h => absurd h (by simp), fun h => absurd (h hreq) heq⟩
  · rename_i hreq
    exact ⟨fun _ h => absurd h hreq, fun _ => rfl⟩

theorem TypeCopy.members {s s' : TStruct} (h : TypeCopy (.struct s) (.struct s')) :
    List.Forall₂ (fun f f' => FieldCopy f f' ∧ TypeCopy f.type f'.type) s.sortedMembers
      s'.sortedMembers := by
  cases h with
  | struct h htypes =>
    exact sortedMembers_forall₂ (fun f f' hf => hf.1.key) (forall₂_and h.members htypes)

end Diagonal

section Programs

def auditedStructs (p : Program) : List TStruct :=
  p.objects ++ p.services.flatMap fun s => s.functions.flatMap fun f => [f.arglist, f.xceptions]

theorem mem_auditedStructs {p : Program} {s : TService} {f : TFunction} (hs : s ∈ p.services)
    (hf : f ∈ s.functions) : f.arglist ∈ auditedStructs p ∧ f.xceptions ∈ auditedStructs p := by
  have hmem : ∀ t ∈ [f.arglist, f.xceptions], t ∈ auditedStructs p := fun t ht =>
    List.mem_append_right _ (List.mem_flatMap.mpr ⟨s, hs, List.mem_flatMap.mpr ⟨f, hf, ht⟩⟩)
  exact ⟨hmem _ (by simp), hmem _ (by simp)⟩

structure NamedTypes (p : Program) : Prop where
  consts : ∀ c ∈ p.consts, Named c.type
  members : ∀ s ∈ auditedStructs p, ∀ f ∈ s.members, Named f.type
  returns : ∀ s ∈ p.services, ∀ f ∈ s.functions, Named f.returntype

/-- The definitions of one kind have different names. -/
structure DistinctNames (p : Program) : Prop where
  namespaces : p.info.namespaces.Pairwise fun a b => a.1 < b.1
  enums : (p.enums.map TEnum.name).Nodup
  objects : (p.objects.map TStructOf.name).Nodup
  services : (p.services.map TService.name).Nodup
  consts : (p.consts.map TConst.name).Nodup
  functions : ∀ s ∈ p.services, (s.functions.map TFunction.name).Nodup

def SameDefaults (n o : TStruct) : Prop :=
  List.Forall₂ (fun f g : TField => f.req ≠ .T_REQUIRED → compareDefaults f.value g.value = true)
    n.sortedMembers o.sortedMembers

theorem compareSingleStruct_copies {s n o : TStruct} {name : String}
    (hnamed : ∀ f ∈ s.members, Named f.type) (hn : TypeCopy (.struct s) (.struct n))
    (ho : TypeCopy (.struct s) (.struct o)) :
    compareSingleStruct n o name = [] ↔ SameDefaults n o := by
  have hsorted : ∀ f ∈ s.sortedMembers, Named f.type :=
    fun f hf => hnamed f ((sortedMembers_perm s).mem_iff.mp hf)
  have hkeys : List.Forall₂ (fun f g : TField => f.key = g.key) n.sortedMembers o.sortedMembers :=
    forall₂_compose hn.members ho.members fun f _ a b ha hb => ha.1.key.trans hb.1.key.symm
  unfold compareSingleStruct SameDefaults
  rw [compareMembers_nil hkeys]
  refine forall₂_iff (forall₂_compose hn.members ho.members fun f hf a b ha hb => ?_)
  rw [compareStructField_copies (hsorted f hf) ha hb, ha.1.req]

theorem compareSingleFunction_copies {f n o : TFunction} (hreturn : Named f.returntype)
    (hargs : ∀ g ∈ f.arglist.members, Named g.type)
    (hthrows : ∀ g ∈ f.xceptions.members, Named g.type) (hn : FunctionCopy f n)
    (ho : FunctionCopy f o) :
    compareSingleFunction n o = [] ↔
      SameDefaults n.arglist o.arglist ∧ SameDefaults n.xceptions o.xceptions := by
  unfold compareSingleFunction
  rw [if_pos (hn.oneway.trans ho.oneway.symm),
    compareType_copies hreturn hn.returntype ho.returntype, if_pos rfl, List.nil_append,
    List.nil_append, List.append_eq_nil_iff, compareSingleStruct_copies hargs hn.arglist ho.arglist,
    compareSingleStruct_copies hthrows hn.xceptions ho.xceptions]

theorem compareByName_copies {α : Type} {R : α → α → Prop} {name : α → String}
    {missing : String → Report} {compare : α → α → List Report} {as ns os : List α}
    (hname : ∀ a b, R a b → name b = name a) (hnodup : (as.map name).Nodup)
    (hn : List.Forall₂ R as ns) (ho : List.Forall₂ R as os) :
    compareByName name missing compare ns os = [] ↔
      List.Forall₂ (fun n o => compare n o = []) ns os := by
  have hnames : List.Forall₂ (fun n o => name n = name o) ns os :=
    forall₂_compose hn ho fun a _ b c hb hc => (hname a b hb).trans (hname a c hc).symm
  rw [← map_of_forall₂ (hn.imp hname)] at hnodup
  exact compareByName_nil hnames hnodup

theorem compareNamespace_self {info : TProgram}
    (h : info.namespaces.Pairwise fun a b => a.1 < b.1) : compareNamespace info info = [] := by
  unfold compareNamespace
  rw [List.flatMap_eq_nil_iff]
  intro ns hns
  rw [SortedMap.lookup_of_mem h hns]
  simp

def NamedOnce (e : TEnum) : Prop :=
  ∀ c ∈ e.constants, ∀ c' ∈ e.constants, c.value = c'.value → c.name = c'.name

theorem getConstantByValue_of_mem {e : TEnum} {c : TEnumValue} (hc : c ∈ e.constants) :
    ∃ first ∈ e.constants, e.getConstantByValue c.value.toInt = some first ∧
      first.value = c.value := by
  have hsome : (e.getConstantByValue c.value.toInt).isSome = true := by
    unfold TEnum.getConstantByValue
    rw [List.find?_isSome]
    exact ⟨c, hc, by simp⟩
  obtain ⟨first, hfirst⟩ := Option.isSome_iff_exists.mp hsome
  have hvalue := List.find?_some hfirst
  exact ⟨first, List.mem_of_find?_eq_some hfirst, hfirst,
    Int32.toInt_inj.mp (by simpa using hvalue)⟩

theorem compareEnumValue_nil {e : TEnum} {c first : TEnumValue}
    (h : e.getConstantByValue c.value.toInt = some first) :
    compareEnumValue e e c = [] ↔ c.name = first.name := by
  unfold compareEnumValue
  rw [h]
  simp

theorem compareEnumValues_self {e : TEnum} : compareEnumValues e e = [] ↔ NamedOnce e := by
  unfold compareEnumValues
  rw [List.flatMap_eq_nil_iff]
  constructor
  · intro h c hc c' hc' hvalue
    obtain ⟨first, -, hget, -⟩ := getConstantByValue_of_mem hc
    have hget' : e.getConstantByValue c'.value.toInt = some first := hvalue ▸ hget
    rw [(compareEnumValue_nil hget).mp (h c hc), (compareEnumValue_nil hget').mp (h c' hc')]
  · intro h c hc
    obtain ⟨first, hmem, hget, hvalue⟩ := getConstantByValue_of_mem hc
    exact (compareEnumValue_nil hget).mpr (h c hc first hmem hvalue.symm)

def SameFunctions (n o : TService) : Prop :=
  List.Forall₂ (fun f g : TFunction => SameDefaults f.arglist g.arglist ∧
    SameDefaults f.xceptions g.xceptions) n.functions o.functions

theorem compareService_copies {p : Program} (hnames : DistinctNames p) (hnamed : NamedTypes p)
    {s n o : TService} (hs : s ∈ p.services) (hn : ServiceCopy s n) (ho : ServiceCopy s o) :
    compareService n o = [] ↔ SameFunctions n o := by
  have hextends : compareExtends n o = [] := by
    unfold compareExtends
    rw [hn.extends_, ho.extends_]
    cases s.extends_ <;> simp
  have hmembers : ∀ f ∈ s.functions, (∀ g ∈ f.arglist.members, Named g.type) ∧
      ∀ g ∈ f.xceptions.members, Named g.type := fun f hf =>
    ⟨hnamed.members _ (mem_auditedStructs hs hf).1, hnamed.members _ (mem_auditedStructs hs hf).2⟩
  unfold compareService compareFunctions SameFunctions
  rw [hextends, List.nil_append, compareByName_copies (fun a b hab => FunctionCopy.name hab)
    (hnames.functions s hs) hn.functions ho.functions]
  refine forall₂_iff (forall₂_compose hn.functions ho.functions fun f hf a b ha hb => ?_)
  exact compareSingleFunction_copies (hnamed.returns s hs f hf) (hmembers f hf).1
    (hmembers f hf).2 ha hb

theorem compareConst_copies {c n o : TConst} (hnamed : Named c.type) (hn : ConstCopy c n)
    (ho : ConstCopy c o) : compareConst n o = [] ↔ compareValues n.value o.value = true := by
  unfold compareConst
  rw [compareType_copies hnamed hn.type ho.type]
  cases compareValues n.value o.value <;> simp

theorem TypeCopy.isXception {s s' : TStruct} (h : TypeCopy (.struct s) (.struct s')) :
    s'.isXception = s.isXception := by
  cases h with
  | struct h _ => exact h.isXception

theorem compareStructs_copies {p n o : Program} {keep : TStruct → Bool} (hnames : DistinctNames p)
    (hn : List.Forall₂ (fun s s' : TStruct => TypeCopy (.struct s) (.struct s'))
      (p.objects.filter keep) (n.objects.filter keep))
    (ho : List.Forall₂ (fun s s' : TStruct => TypeCopy (.struct s) (.struct s'))
      (p.objects.filter keep) (o.objects.filter keep)) :
    compareStructs (n.objects.filter keep) (o.objects.filter keep) = [] ↔
      List.Forall₂ (fun n o => compareSingleStruct n o "" = []) (n.objects.filter keep)
        (o.objects.filter keep) := by
  unfold compareStructs
  refine compareByName_copies (R := fun s s' : TStruct => TypeCopy (.struct s) (.struct s'))
    (fun a b hab => hab.getName) ?_ hn ho
  exact hnames.objects.sublist (List.filter_sublist.map _)

/-- The audit of two copies compares the names of enum values and the defaults. -/
theorem audit_copies {p n o : Program} (hnames : DistinctNames p) (hnamed : NamedTypes p)
    (hn : CopyOf p n) (ho : CopyOf p o) :
    audit n o = [] ↔
      (∀ e ∈ p.enums, NamedOnce e) ∧ List.Forall₂ SameDefaults n.objects o.objects ∧
        List.Forall₂ SameFunctions n.services o.services ∧
        List.Forall₂ (fun c d => compareValues c.value d.value = true) n.consts o.consts := by
  have henums : compareEnums n.enums o.enums = [] ↔ ∀ e ∈ p.enums, NamedOnce e := by
    unfold compareEnums
    rw [hn.enums, ho.enums, compareByName_nil (List.forall₂_same.mpr fun e _ => rfl) hnames.enums,
      List.forall₂_same]
    simp only [compareEnumValues_self]
  have hnamespace : compareNamespace n.info o.info = [] := by
    rw [hn.info, ho.info]
    exact compareNamespace_self hnames.namespaces
  have hconsts : compareConsts n.consts o.consts = [] ↔
      List.Forall₂ (fun c d => compareValues c.value d.value = true) n.consts o.consts := by
    unfold compareConsts
    rw [compareByName_copies (fun a b hab => ConstCopy.name hab) hnames.consts hn.consts ho.consts]
    exact forall₂_iff (forall₂_compose hn.consts ho.consts fun c hc a b ha hb =>
      compareConst_copies (hnamed.consts c hc) ha hb)
  have hservices : compareServices n.services o.services = [] ↔
      List.Forall₂ SameFunctions n.services o.services := by
    unfold compareServices
    rw [compareByName_copies (fun a b hab => ServiceCopy.name hab) hnames.services hn.services
      ho.services]
    exact forall₂_iff (forall₂_compose hn.services ho.services fun s hs a b ha hb =>
      compareService_copies hnames hnamed hs ha hb)
  have hobjects : compareStructs n.structs o.structs = [] ∧
      compareStructs n.xceptions o.xceptions = [] ↔
        List.Forall₂ SameDefaults n.objects o.objects := by
    obtain ⟨hns, hnx⟩ := (forall₂_filter_iff (hn.objects.imp fun _ _ => TypeCopy.isXception)).mp
      hn.objects
    obtain ⟨hos, hox⟩ := (forall₂_filter_iff (ho.objects.imp fun _ _ => TypeCopy.isXception)).mp
      ho.objects
    unfold Program.structs Program.xceptions
    rw [compareStructs_copies hnames hns hos, compareStructs_copies hnames hnx hox,
      ← forall₂_filter_iff (forall₂_compose hn.objects ho.objects fun s _ a b ha hb =>
        hb.isXception.trans ha.isXception.symm)]
    exact forall₂_iff (forall₂_compose hn.objects ho.objects fun s hs a b ha hb =>
      compareSingleStruct_copies (hnamed.members s (List.mem_append_left _ hs)) ha hb)
  unfold audit
  simp only [List.append_eq_nil_iff, hnamespace, true_and, henums, hconsts, hservices]
  rw [← hobjects]
  tauto

end Programs

section Addresses
variable (order : ConstValue → ConstValue)

mutual
/-- The type as another parse makes it, that orders the entries of a value by `order`. -/
def reorderType : ThriftType → ThriftType
  | .baseType base bin => .baseType base bin
  | .enum e => .enum e
  | .struct ⟨program, name, members, isXception, isUnion, validated, withValue⟩ =>
    .struct ⟨program, name, reorderMembers members, isXception, isUnion, validated, withValue⟩
  | .list t => .list (reorderType t)
  | .set t => .set (reorderType t)
  | .map k v => .map (reorderType k) (reorderType v)
  | .typedef p name t => .typedef p name (reorderType t)
  | .forwardTypedef p name => .forwardTypedef p name

def reorderMembers : List (TFieldOf ThriftType) → List (TFieldOf ThriftType)
  | [] => []
  | ⟨type, name, key, req, value, annotations, doc⟩ :: fs =>
    ⟨reorderType type, name, key, req, value.map order, annotations, doc⟩ :: reorderMembers fs
end

def reorderStruct (s : TStruct) : TStruct := { s with members := reorderMembers order s.members }

def reorderFunction (f : TFunction) : TFunction :=
  { f with
    returntype := reorderType order f.returntype
    arglist := reorderStruct order f.arglist
    xceptions := reorderStruct order f.xceptions }

def reorderService (s : TService) : TService :=
  { s with functions := s.functions.map (reorderFunction order) }

def reorderConst (c : TConst) : TConst :=
  { c with type := reorderType order c.type, value := order c.value }

def reorderProgram (p : Program) : Program :=
  { p with
    typedefs := p.typedefs.map fun d => (d.1, reorderType order d.2)
    consts := p.consts.map (reorderConst order)
    objects := p.objects.map (reorderStruct order)
    services := p.services.map (reorderService order) }

variable {order}

theorem reorderMembers_eq (fs : List TField) : reorderMembers order fs =
    fs.map fun f => { f with type := reorderType order f.type, value := f.value.map order } := by
  induction fs with
  | nil => rfl
  | cons f fs ih =>
    unfold reorderMembers
    rw [ih]
    rfl

theorem reorderMembers_copy (h : ∀ v, Reordered v (order v)) (fs : List TField) :
    List.Forall₂ FieldCopy fs (reorderMembers order fs) := by
  rw [reorderMembers_eq, List.forall₂_map_right_iff, List.forall₂_same]
  intro f _
  refine ⟨rfl, rfl, rfl, ?_, rfl, rfl⟩
  cases f.value with
  | none => exact .none
  | some v => exact .some (h v)

theorem inductMembers {P : ThriftType → Prop} (baseType : ∀ b bin, P (.baseType b bin))
    (enum : ∀ e, P (.enum e))
    (struct : ∀ s : TStruct, (∀ f ∈ s.members, P f.type) → P (.struct s))
    (list : ∀ e, P e → P (.list e)) (set : ∀ e, P e → P (.set e))
    (map : ∀ k v, P k → P v → P (.map k v)) (typedef : ∀ p s t, P t → P (.typedef p s t))
    (forwardTypedef : ∀ p s, P (.forwardTypedef p s)) : ∀ t, P t := by
  intro t
  refine ThriftType.rec (motive_1 := P) (motive_2 := fun s => ∀ f ∈ s.members, P f.type)
    (motive_3 := fun fs => ∀ f ∈ fs, P f.type) (motive_4 := fun f => P f.type) baseType enum
    struct list set map typedef forwardTypedef ?_ ?_ ?_ ?_ t
  · exact fun _ _ _ _ _ _ _ hmembers => hmembers
  · simp
  · intro f fs hf hfs g hg
    rcases List.mem_cons.mp hg with rfl | hg
    · exact hf
    · exact hfs g hg
  · exact fun _ _ _ _ _ _ _ htype => htype

theorem reorderType_copy (h : ∀ v, Reordered v (order v)) (t : ThriftType) :
    TypeCopy t (reorderType order t) := by
  induction t using inductMembers with
  | baseType => exact .baseType
  | enum => exact .enum
  | struct s ih =>
    unfold reorderType
    refine .struct ⟨rfl, rfl, reorderMembers_copy h s.members, rfl, rfl, rfl, rfl⟩ ?_
    change List.Forall₂ _ s.members (reorderMembers order s.members)
    rw [reorderMembers_eq, List.forall₂_map_right_iff, List.forall₂_same]
    exact ih
  | list t ih => exact .list ih
  | set t ih => exact .set ih
  | map k v ihk ihv => exact .map ihk ihv
  | typedef p name t ih => exact .typedef ih
  | forwardTypedef => exact .forwardTypedef

theorem reorderProgram_copy (h : ∀ v, Reordered v (order v)) (p : Program) :
    CopyOf p (reorderProgram order p) := by
  have hstruct : ∀ s : TStruct, TypeCopy (.struct s) (.struct (reorderStruct order s)) :=
    fun s => reorderType_copy h (.struct s)
  refine ⟨rfl, ?_, rfl, ?_, ?_, ?_⟩
  · exact List.forall₂_map_right_iff.mpr
      (List.forall₂_same.mpr fun d _ => ⟨rfl, reorderType_copy h d.2⟩)
  · exact List.forall₂_map_right_iff.mpr
      (List.forall₂_same.mpr fun c _ => ⟨reorderType_copy h c.type, rfl, h c.value⟩)
  · exact List.forall₂_map_right_iff.mpr (List.forall₂_same.mpr fun s _ => hstruct s)
  · refine List.forall₂_map_right_iff.mpr (List.forall₂_same.mpr fun s _ => ⟨rfl, rfl, ?_, rfl⟩)
    exact List.forall₂_map_right_iff.mpr (List.forall₂_same.mpr fun f _ =>
      ⟨reorderType_copy h f.returntype, rfl, hstruct f.arglist, hstruct f.xceptions, rfl⟩)

end Addresses

/-- A default that the audit compares with the default of the same field, or the value
    of a constant. -/
def Compared (p : Program) (v : ConstValue) : Prop :=
  (∃ s ∈ auditedStructs p, ∃ f ∈ s.members, f.req ≠ .T_REQUIRED ∧ f.value = some v) ∨
    ∃ c ∈ p.consts, c.value = v

/-- No enum has two names for a value, and what is compared agrees with itself. -/
structure SelfConsistent (p : Program) : Prop where
  enums : ∀ e ∈ p.enums, NamedOnce e
  values : ∀ v, Compared p v → Agree v v

section Reflexive
variable {p : Program}

theorem compareDefaults_of_agree {u a b : Option ConstValue} (ha : Option.Rel Reordered u a)
    (hb : Option.Rel Reordered u b) (h : ∀ v, u = some v → Agree v v) :
    compareDefaults a b = true := by
  cases ha with
  | none =>
    cases hb
    rfl
  | some ha =>
    cases hb with
    | some hb => exact (h _ rfl).alwaysEqual _ _ ha hb

theorem sameDefaults_of_agree {s n o : TStruct} (hn : TypeCopy (.struct s) (.struct n))
    (ho : TypeCopy (.struct s) (.struct o))
    (h : ∀ f ∈ s.members, f.req ≠ .T_REQUIRED → ∀ v, f.value = some v → Agree v v) :
    SameDefaults n o := by
  refine forall₂_compose hn.members ho.members fun f hf a b ha hb hreq => ?_
  have hmem := (sortedMembers_perm s).mem_iff.mp hf
  exact compareDefaults_of_agree ha.1.value hb.1.value (h f hmem (ha.1.req ▸ hreq))

theorem audit_nil_of_selfConsistent (hnames : DistinctNames p) (hnamed : NamedTypes p)
    (h : SelfConsistent p) {n o : Program} (hn : CopyOf p n) (ho : CopyOf p o) :
    audit n o = [] := by
  have hstruct : ∀ s ∈ auditedStructs p, ∀ f ∈ s.members, f.req ≠ .T_REQUIRED →
      ∀ v, f.value = some v → Agree v v :=
    fun s hs f hf hreq v hv => h.values v (.inl ⟨s, hs, f, hf, hreq, hv⟩)
  refine (audit_copies hnames hnamed hn ho).mpr ⟨h.enums, ?_, ?_, ?_⟩
  · exact forall₂_compose hn.objects ho.objects fun s hs a b ha hb =>
      sameDefaults_of_agree ha hb (hstruct s (List.mem_append_left _ hs))
  · refine forall₂_compose hn.services ho.services fun s hs a b ha hb => ?_
    refine forall₂_compose ha.functions hb.functions fun f hf c d hc hd => ?_
    obtain ⟨hargs, hthrows⟩ := mem_auditedStructs hs hf
    exact ⟨sameDefaults_of_agree hc.arglist hd.arglist (hstruct _ hargs),
      sameDefaults_of_agree hc.xceptions hd.xceptions (hstruct _ hthrows)⟩
  · exact forall₂_compose hn.consts ho.consts fun c hc a b ha hb =>
      (h.values _ (.inr ⟨c, hc, rfl⟩)).alwaysEqual _ _ ha.value hb.value

theorem sortedMembers_reorderStruct (order : ConstValue → ConstValue) (s : TStruct) :
    List.Forall₂ (fun f f' : TField => f'.key = f.key ∧ f'.req = f.req ∧
      f'.value = f.value.map order) s.sortedMembers (reorderStruct order s).sortedMembers := by
  refine sortedMembers_forall₂ (fun f f' h => h.1) ?_
  change List.Forall₂ _ s.members (reorderMembers order s.members)
  rw [reorderMembers_eq, List.forall₂_map_right_iff, List.forall₂_same]
  exact fun f _ => ⟨rfl, rfl, rfl⟩

theorem compareValues_of_sameDefaults {order order' : ConstValue → ConstValue} {s : TStruct}
    (h : SameDefaults (reorderStruct order s) (reorderStruct order' s)) {f : TField}
    (hf : f ∈ s.members) (hreq : f.req ≠ .T_REQUIRED) {v : ConstValue} (hv : f.value = some v) :
    compareValues (order v) (order' v) = true := by
  have hmem := (sortedMembers_perm s).mem_iff.mpr hf
  obtain ⟨a, b, ⟨-, hareq, hva⟩, ⟨-, -, hvb⟩, hab⟩ := exists_of_forall₂
    (sortedMembers_reorderStruct order s) (sortedMembers_reorderStruct order' s) h f hmem
  have hboth := hab (hareq ▸ hreq)
  rw [hva, hvb, hv] at hboth
  exact hboth

theorem compareValues_of_audit (hnames : DistinctNames p) (hnamed : NamedTypes p)
    {order order' : ConstValue → ConstValue} (ho : ∀ v, Reordered v (order v))
    (ho' : ∀ v, Reordered v (order' v))
    (h : audit (reorderProgram order p) (reorderProgram order' p) = []) {v : ConstValue}
    (hv : Compared p v) : compareValues (order v) (order' v) = true := by
  obtain ⟨-, hobjects, hservices, hconsts⟩ := (audit_copies hnames hnamed
    (reorderProgram_copy ho p) (reorderProgram_copy ho' p)).mp h
  rcases hv with ⟨s, hs, f, hf, hreq, hv⟩ | ⟨c, hc, rfl⟩
  · have hsame : SameDefaults (reorderStruct order s) (reorderStruct order' s) := by
      rcases List.mem_append.mp hs with hs | hs
      · exact forall₂_maps.mp hobjects s hs
      · obtain ⟨t, ht, hs⟩ := List.mem_flatMap.mp hs
        obtain ⟨g, hg, hs⟩ := List.mem_flatMap.mp hs
        have hg := forall₂_maps.mp (forall₂_maps.mp hservices t ht) g hg
        rcases List.mem_cons.mp hs with rfl | hs
        · exact hg.1
        · rw [List.mem_singleton.mp hs]
          exact hg.2
    exact compareValues_of_sameDefaults hsame hf hreq hv
  · exact forall₂_maps.mp hconsts c hc

open Classical in
noncomputable def onlyOrder (v v' : ConstValue) : ConstValue → ConstValue :=
  fun w => if w = v then v' else w

theorem onlyOrder_self (v v' : ConstValue) : onlyOrder v v' v = v' := if_pos rfl

theorem onlyOrder_reordered {v v' : ConstValue} (h : Reordered v v') (w : ConstValue) :
    Reordered w (onlyOrder v v' w) := by
  unfold onlyOrder
  split
  · rename_i heq
    rw [heq]
    exact h
  · exact .refl w

theorem selfConsistent_of_audit (hnames : DistinctNames p) (hnamed : NamedTypes p)
    (h : ∀ n o, CopyOf p n → CopyOf p o → audit n o = []) : SelfConsistent p := by
  constructor
  · have hself := reorderProgram_copy Reordered.refl p
    exact ((audit_copies hnames hnamed hself hself).mp (h _ _ hself hself)).1
  · refine fun v hv => AlwaysEqual.agree fun v' v'' hv' hv'' => ?_
    have horder := onlyOrder_reordered hv'
    have horder' := onlyOrder_reordered hv''
    have hsame := compareValues_of_audit hnames hnamed horder horder'
      (h _ _ (reorderProgram_copy horder p) (reorderProgram_copy horder' p)) hv
    rw [onlyOrder_self, onlyOrder_self] at hsame
    exact hsame

end Reflexive

section Accepted
variable {flags : Flags} {scopes : String → Scope} {fuel : ℕ} {includes : List Program}

theorem functions_of_elaborate {info : TProgram} {scope : Scope} {d : Definition} {s : TService}
    (h : elaborate flags scopes fuel info scope d = .ok (.service s)) :
    (s.functions.map TFunction.name).Nodup := by
  have hlist : ∀ (ds : List FunctionDecl) (fs fs' : List TFunction),
      functionList flags scopes fuel info scope fs ds = .ok fs' →
        (fs.map TFunction.name).Nodup → (fs'.map TFunction.name).Nodup := by
    intro ds
    induction ds with
    | nil =>
      intro fs fs' h hfs
      rw [← Except.ok.inj h]
      exact hfs
    | cons d ds ih =>
      intro fs fs' h hfs
      obtain ⟨f, -, h⟩ := bind_ok h
      split at h
      · cases h
      · rename_i hnew
        refine ih _ _ h ?_
        rw [List.map_append, List.nodup_append]
        refine ⟨hfs, by simp, fun a ha b hb heq => hnew ?_⟩
        obtain ⟨g, hg, rfl⟩ := List.mem_map.mp ha
        rw [List.map_singleton, List.mem_singleton] at hb
        rw [List.any_eq_true]
        exact ⟨g, hg, by simpa using heq.trans hb⟩
  cases d with
  | service name parent functions =>
    obtain ⟨s', hs, h⟩ := bind_ok h
    obtain rfl := Entry.service.inj (Except.ok.inj h)
    obtain ⟨parent', -, hs⟩ := bind_ok hs
    obtain ⟨fs, hfs, hs⟩ := bind_ok hs
    obtain ⟨u, -, hs⟩ := bind_ok hs
    rw [← Except.ok.inj hs]
    exact hlist _ _ _ hfs (by simp)
  | const type name value =>
    obtain ⟨_, -, h⟩ := bind_ok h
    obtain ⟨_, -, h⟩ := bind_ok h
    obtain ⟨_, -, h⟩ := bind_ok h
    cases h
  | typedef | enum | senum | struct | xception =>
    obtain ⟨_, -, h⟩ := bind_ok h
    cases h

theorem functions_of_parse {path : String} {file : IdlFile} {scope : Scope}
    {parent : Option Scope} {pass : Pass}
    (h : parseProgram flags scopes fuel includes path file scope parent = .ok pass) :
    ∀ s ∈ pass.program.services, (s.functions.map TFunction.name).Nodup := by
  apply definitions_invariant h
  · simp
  · intro d _ q q' e hq he henter
    rw [enter_program henter]
    cases e with
    | service s =>
      change ∀ t ∈ q.program.services ++ [s], _
      intro t ht
      rcases List.mem_append.mp ht with ht | ht
      · exact hq t ht
      · rw [List.mem_singleton.mp ht]
        exact functions_of_elaborate he
    | _ => exact hq

theorem mapOfEntries_sorted (es : List (String × String)) :
    (mapOfEntries es).Pairwise fun a b => a.1 < b.1 := by
  have hfold : ∀ (es acc : List (String × String)), acc.Pairwise (fun a b => a.1 < b.1) →
      (es.foldl (fun m e => SortedMap.insertList e.1 e.2 m) acc).Pairwise
        fun a b => a.1 < b.1 := by
    intro es
    induction es with
    | nil => exact fun acc h => h
    | cons e es ih => exact fun acc h => ih _ (SortedMap.insertList_sorted e.1 e.2 h)
  exact hfold es [] .nil

theorem distinctNames_of_parse {path : String} {file : IdlFile} {scope : Scope}
    {parent : Option Scope} {pass : Pass}
    (h : parseProgram flags scopes fuel includes path file scope parent = .ok pass) :
    DistinctNames pass.program := by
  have hpass := namesApart_of_parse h
  have hnodup := hpass.types
  unfold Program.typenames at hnodup
  obtain ⟨hnodup, hservices, -⟩ := List.nodup_append.mp hnodup
  obtain ⟨hnodup, hobjects, -⟩ := List.nodup_append.mp hnodup
  obtain ⟨-, henums, -⟩ := List.nodup_append.mp hnodup
  refine ⟨?_, henums, hobjects, hservices, hpass.consts, functions_of_parse h⟩
  rw [parseProgram_info h]
  exact mapOfEntries_sorted _

/-- Auditing an accepted file against itself is silent, whatever the addresses, exactly
    when the file is consistent in itself. -/
theorem audit_silent_iff_selfConsistent {path : String} {file : IdlFile} {scope : Scope}
    {parent : Option Scope} {pass : Pass}
    (h : parseProgram flags scopes fuel includes path file scope parent = .ok pass)
    (hnamed : NamedTypes pass.program) :
    (∀ n o, CopyOf pass.program n → CopyOf pass.program o → audit n o = []) ↔
      SelfConsistent pass.program := by
  have hnames := distinctNames_of_parse h
  exact ⟨selfConsistent_of_audit hnames hnamed,
    fun hself n o hn ho => audit_nil_of_selfConsistent hnames hnamed hself hn ho⟩

end Accepted

section Examples

def parseAlone (file : IdlFile) : Compile Pass :=
  parseProgram {} (fun _ => {}) 1 [] "a.thrift" file {} none

/-- `enum Color { RED = 1, GREEN = 2 }` and `struct Pixel { 1: i32 depth = 8 }` -/
def pixels : IdlFile where
  definitions := [.enum "Color" [("RED", some 1), ("GREEN", some 2)],
    .struct false "Pixel" [{
      identifier := some 1
      type := .baseType .TYPE_I32 false
      name := "depth"
      value := some { valType := .CV_INTEGER, intVal := 8 } }]]

/-- `enum Answer { YES = 1, OUI = 1 }` -/
def twoNames : IdlFile where
  definitions := [.enum "Answer" [("YES", some 1), ("OUI", some 1)]]

def pixelsProgram : Program where
  info := ⟨"a.thrift", []⟩
  enums := [⟨⟨"a.thrift", []⟩, "Color", [⟨"RED", 1⟩, ⟨"GREEN", 2⟩]⟩]
  objects := [{
    program := ⟨"a.thrift", []⟩
    name := "Pixel"
    members := [{
      type := .baseType .TYPE_I32 false
      name := "depth"
      key := 1
      req := .T_OPT_IN_REQ_OUT
      value := some { valType := .CV_INTEGER, intVal := 8 } }] }]

theorem parse_pixels : ∃ pass, parseAlone pixels = .ok pass ∧ pass.program = pixelsProgram :=
  ⟨_, rfl, rfl⟩

theorem pixels_selfConsistent : SelfConsistent pixelsProgram := by
  constructor
  · unfold NamedOnce pixelsProgram
    decide
  · intro v hv
    rcases hv with ⟨s, hs, f, hf, -, hv⟩ | ⟨c, hc, -⟩
    · rw [List.mem_singleton.mp hs] at hf
      rw [List.mem_singleton.mp hf] at hv
      obtain rfl := Option.some.inj hv
      exact .integer rfl rfl rfl
    · exact absurd hc List.not_mem_nil

theorem pixels_named : NamedTypes pixelsProgram := by
  refine ⟨fun c hc => absurd hc List.not_mem_nil, fun s hs f hf => ?_,
    fun s hs => absurd hs List.not_mem_nil⟩
  rw [List.mem_singleton.mp hs] at hf
  rw [List.mem_singleton.mp hf]
  change "i32" ≠ ""
  decide

theorem pixels_audit_silent : ∃ pass, parseAlone pixels = .ok pass ∧
    ∀ n o, CopyOf pass.program n → CopyOf pass.program o → audit n o = [] := by
  obtain ⟨pass, hpass, hprogram⟩ := parse_pixels
  have hnamed : NamedTypes pass.program := hprogram ▸ pixels_named
  exact ⟨pass, hpass,
    (audit_silent_iff_selfConsistent hpass hnamed).mpr (hprogram ▸ pixels_selfConsistent)⟩

/-- Two names of one value: the audit of the file against itself reports the second. -/
theorem twoNames_audit : ∃ pass, parseAlone twoNames = .ok pass ∧
    CopyOf pass.program pass.program ∧
    audit pass.program pass.program =
      [.warning "Name of the value 1 changed in enum Answer\n"] :=
  ⟨_, rfl, ⟨rfl, .nil, rfl, .nil, .nil, .nil⟩, by decide +kernel⟩

end Examples

end Sparsam.AuditReflexivity
