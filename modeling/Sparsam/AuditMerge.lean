import Sparsam.Audit
import Sparsam.FieldLists

set_option autoImplicit false

/-!
# The merge of two member lists

`compare_single_struct` walks the members of both structs in the order of their
ids. Each turn of its loop handles one id; the reports are what the turns print.
-/
namespace Sparsam.AuditMerge
open ThriftTypes ThriftScope ThriftParser FieldLists Audit

/-- The structs made by `new t_struct` and its mutators. -/
inductive Built : TStruct → Prop where
  | new (program : TProgram) : Built { program }
  | append {s s' : TStruct} {f : TField} (hs : Built s) (h : s.append f = .ok (some s')) : Built s'
  | setName {s s' : TStruct} {name : String} (hs : Built s) (h : s.setName name = .ok s') : Built s'
  | setUnion {s s' : TStruct} {isUnion : Bool} (hs : Built s) (h : s.setUnion isUnion = .ok s') :
      Built s'
  | setXception {s : TStruct} (isXception : Bool) (hs : Built s) : Built (s.setXception isXception)

/-- One turn of the loop of `compare_single_struct`. -/
inductive Turn where
  | compared (new old : TField)
  | removed (old : TField)
  | addedMiddle (new : TField)
  | addedEnd (new : TField)

namespace Turn

def key : Turn → Int32
  | .compared new _ => new.key
  | .removed old => old.key
  | .addedMiddle new => new.key
  | .addedEnd new => new.key

def reports (structName : String) : Turn → List Report
  | .compared new old => compareStructField new old structName
  | .removed old => [fieldRemoved old structName]
  | .addedMiddle new =>
    [.failure ("Struct field is added in the middle with Id = " ++ toString new.key.toInt ++
      " in " ++ structName ++ "\n")]
  | .addedEnd new =>
    if new.req = .T_REQUIRED then
      [.failure ("Required Struct Field Added for Id = " ++ toString new.key.toInt ++ " in " ++
        structName ++ " \n")]
    else []

end Turn

def turns : List TField → List TField → List Turn
  | [], [] => []
  | [], old :: olds => .removed old :: turns [] olds
  | new :: news, [] => .addedEnd new :: turns news []
  | new :: news, old :: olds =>
    if new.key = old.key then .compared new old :: turns news olds
    else if new.key < old.key then .addedMiddle new :: turns news (old :: olds)
    else .removed old :: turns (new :: news) olds
termination_by news olds => news.length + olds.length

/-- What became of every id, each in one turn. -/
structure Classified (news olds : List TField) (ts : List Turn) : Prop where
  once : (ts.map Turn.key).Nodup
  compared : ∀ n o, .compared n o ∈ ts ↔ n ∈ news ∧ o ∈ olds ∧ n.key = o.key
  removed : ∀ o, .removed o ∈ ts ↔ o ∈ olds ∧ ∀ n ∈ news, n.key ≠ o.key
  addedMiddle : ∀ n, .addedMiddle n ∈ ts ↔
    n ∈ news ∧ (∀ o ∈ olds, n.key ≠ o.key) ∧ ∃ o ∈ olds, n.key < o.key
  addedEnd : ∀ n, .addedEnd n ∈ ts ↔ n ∈ news ∧ ∀ o ∈ olds, o.key < n.key

section Built

theorem keys_of_sameMembers {s s' : TStruct} (h : SameMembers s s') :
    s'.members.map (fun f => f.key) = s.members.map fun f => f.key := by
  have hmap := congrArg (List.map fun f : TField => f.key) h.members
  rw [List.map_map, List.map_map] at hmap
  exact hmap

theorem append_keys {s s' : TStruct} {f : TField} (h : s.append f = .ok (some s')) :
    s'.members.map (fun g => g.key) = s.members.map (fun g => g.key) ++ [f.key] ∧
      f.key ∉ s.members.map fun g => g.key := by
  unfold TStructOf.append at h
  split at h
  · cases h
  rename_i hkey
  split at h
  · cases h
  obtain ⟨r, hr, h⟩ := bind_ok h
  obtain rfl := Option.some.inj (Except.ok.inj h)
  refine ⟨?_, fun hmem => hkey ?_⟩
  · rw [keys_of_sameMembers (validateUnionMember_sameMembers hr), List.map_append]
    rfl
  · obtain ⟨g, hg, heq⟩ := List.mem_map.mp hmem
    rw [List.any_eq_true]
    exact ⟨g, hg, by simpa using heq⟩

theorem Built.keys_nodup {s : TStruct} (h : Built s) : (s.members.map fun f => f.key).Nodup := by
  induction h with
  | new program => exact List.nodup_nil
  | append _ h ih =>
    obtain ⟨hkeys, hnew⟩ := append_keys h
    rw [hkeys]
    exact List.nodup_append.mpr ⟨ih, by simp, fun a ha b hb heq => hnew (by simp_all)⟩
  | setName _ h ih =>
    rw [keys_of_sameMembers (validateUnionMembers_sameMembers h)]
    exact ih
  | setUnion _ h ih =>
    rw [keys_of_sameMembers (validateUnionMembers_sameMembers h)]
    exact ih
  | setXception _ _ ih => exact ih

def Increasing (fs : List TField) : Prop := fs.Pairwise fun f g => f.key < g.key

theorem insertInIdOrder_increasing {f : TField} {fs : List TField} (hfs : Increasing fs)
    (hnew : ∀ g ∈ fs, g.key ≠ f.key) : Increasing (TStructOf.insertInIdOrder f fs) := by
  induction fs with
  | nil => exact List.pairwise_singleton _ f
  | cons g fs ih =>
    obtain ⟨hg, hfs⟩ := List.pairwise_cons.mp hfs
    unfold TStructOf.insertInIdOrder
    split
    · rename_i hlt
      refine List.pairwise_cons.mpr ⟨fun k hk => ?_, List.pairwise_cons.mpr ⟨hg, hfs⟩⟩
      rcases List.mem_cons.mp hk with rfl | hk
      · exact hlt
      · exact Int32.lt_trans hlt (hg k hk)
    · rename_i hle
      refine List.pairwise_cons.mpr ⟨fun k hk => ?_, ih hfs fun k hk => hnew k (by simp [hk])⟩
      rcases List.mem_cons.mp ((insertInIdOrder_perm f fs).mem_iff.mp hk) with rfl | hk
      · exact Int32.lt_of_le_of_ne (Int32.not_lt.mp hle) (hnew g (by simp))
      · exact hg k hk

theorem sortedMembers_increasing {s : TStruct} (h : (s.members.map fun f => f.key).Nodup) :
    Increasing s.sortedMembers := by
  have hfold : ∀ fs acc : List TField, ((acc ++ fs).map fun f => f.key).Nodup → Increasing acc →
      Increasing (fs.foldl (fun sorted f => TStructOf.insertInIdOrder f sorted) acc) := by
    intro fs
    induction fs with
    | nil => exact fun acc _ hacc => hacc
    | cons f fs ih =>
      intro acc hnodup hacc
      have hperm : (TStructOf.insertInIdOrder f acc ++ fs).Perm (acc ++ f :: fs) :=
        ((insertInIdOrder_perm f acc).append_right fs).trans List.perm_middle.symm
      refine ih _ ((hperm.map _).nodup_iff.mpr hnodup) (insertInIdOrder_increasing hacc ?_)
      intro g hg heq
      rw [List.map_append, List.nodup_append] at hnodup
      exact hnodup.2.2 g.key (List.mem_map_of_mem hg) f.key (by simp) heq
  exact hfold s.members [] h .nil

theorem Built.increasing {s : TStruct} (h : Built s) : Increasing s.sortedMembers :=
  sortedMembers_increasing h.keys_nodup

variable {flags : Flags} {scopes : String → Scope} {fuel : ℕ} {program : TProgram} {scope : Scope}

theorem fieldListFrom_built {arglist : Bool} {ds : List FieldDecl} {s s' : TStruct} {y y' : Int32}
    (hs : Built s)
    (h : fieldListFrom flags scopes fuel program scope arglist s y ds = .ok (s', y')) :
    Built s' := by
  induction ds generalizing s y with
  | nil =>
    unfold fieldListFrom at h
    obtain ⟨rfl, -⟩ := Prod.mk.inj (Except.ok.inj h)
    exact hs
  | cons d ds ih =>
    unfold fieldListFrom at h
    obtain ⟨⟨f, z⟩, -, h⟩ := bind_ok h
    obtain ⟨t, ht, h⟩ := bind_ok h
    obtain ⟨r, hr, ht⟩ := bind_ok ht
    cases r with
    | none => cases ht
    | some r =>
      obtain rfl := Except.ok.inj ht
      exact ih (.append hs hr) h

theorem fieldList_built {arglist : Bool} {ds : List FieldDecl} {s : TStruct}
    (h : fieldList flags scopes fuel program scope arglist ds = .ok s) : Built s := by
  obtain ⟨⟨s', y⟩, hs, h⟩ := bind_ok h
  rw [← Except.ok.inj h]
  exact fieldListFrom_built (.new program) hs

theorem struct_built {isUnion : Bool} {name : String} {ds : List FieldDecl} {s : TStruct}
    (h : struct flags scopes fuel program scope isUnion name ds = .ok s) : Built s := by
  obtain ⟨r, hr, h⟩ := bind_ok h
  obtain ⟨u, -, h⟩ := bind_ok h
  obtain ⟨t, ht, h⟩ := bind_ok h
  exact .setName (.setUnion (fieldList_built hr) ht) h

end Built

section Merge

theorem compareMembers_turns (structName : String) (news olds : List TField) :
    compareMembers structName news olds =
      (turns news olds).flatMap (Turn.reports structName) := by
  fun_induction turns news olds with
  | case1 => simp [compareMembers]
  | case2 old olds ih =>
    unfold compareMembers
    rw [ih]
    rfl
  | case3 new news ih =>
    unfold compareMembers
    rw [ih]
    rfl
  | case4 new news old olds hkey ih =>
    unfold compareMembers
    rw [if_pos hkey, ih]
    rfl
  | case5 new news old olds hkey hlt ih =>
    unfold compareMembers
    rw [if_neg hkey, if_pos hlt, ih]
    rfl
  | case6 new news old olds hkey hlt ih =>
    unfold compareMembers
    rw [if_neg hkey, if_neg hlt, ih]
    rfl

theorem turns_length (news olds : List TField) :
    (turns news olds).length ≤ news.length + olds.length := by
  fun_induction turns news olds with
  | case1 => exact Nat.le_refl _
  | _ => simp only [List.length_cons] at *; omega

theorem nodup_cons_of_lt {t : Turn} {ts : List Turn} (h : ∀ u ∈ ts, t.key < u.key)
    (hts : (ts.map Turn.key).Nodup) : ((t :: ts).map Turn.key).Nodup := by
  refine List.nodup_cons.mpr ⟨fun hmem => ?_, hts⟩
  obtain ⟨u, hu, heq⟩ := List.mem_map.mp hmem
  have hlt := h u hu
  rw [heq] at hlt
  exact Int32.lt_irrefl hlt

theorem Classified.key_mem {news olds : List TField} {ts : List Turn}
    (h : Classified news olds ts) {u : Turn} (hu : u ∈ ts) :
    (∃ n ∈ news, n.key = u.key) ∨ ∃ o ∈ olds, o.key = u.key := by
  cases u with
  | compared n o => exact .inl ⟨n, ((h.compared n o).mp hu).1, rfl⟩
  | removed o => exact .inr ⟨o, ((h.removed o).mp hu).1, rfl⟩
  | addedMiddle n => exact .inl ⟨n, ((h.addedMiddle n).mp hu).1, rfl⟩
  | addedEnd n => exact .inl ⟨n, ((h.addedEnd n).mp hu).1, rfl⟩

section Cases
variable {new old : TField} {news olds : List TField} {ts : List Turn}

theorem Classified.once_cons (h : Classified news olds ts) {t : Turn}
    (hnews : ∀ n ∈ news, t.key < n.key) (holds : ∀ o ∈ olds, t.key < o.key) :
    ((t :: ts).map Turn.key).Nodup := by
  refine nodup_cons_of_lt (fun u hu => ?_) h.once
  rcases h.key_mem hu with ⟨n, hn, heq⟩ | ⟨o, ho, heq⟩
  · rw [← heq]
    exact hnews n hn
  · rw [← heq]
    exact holds o ho

theorem Classified.cons_compared (h : Classified news olds ts) (hkey : new.key = old.key)
    (hnews : ∀ n ∈ news, new.key < n.key) (holds : ∀ o ∈ olds, old.key < o.key) :
    Classified (new :: news) (old :: olds) (.compared new old :: ts) := by
  refine ⟨h.once_cons hnews fun o ho => ?_, ?_, ?_, ?_, ?_⟩
  · change new.key < o.key
    rw [hkey]
    exact holds o ho
  · intro n o
    rw [List.mem_cons, h.compared]
    grind [Int32.lt_irrefl]
  · intro o
    rw [List.mem_cons, h.removed]
    grind [Int32.lt_irrefl]
  · intro n
    rw [List.mem_cons, h.addedMiddle]
    grind [Int32.lt_irrefl, Int32.lt_trans]
  · intro n
    rw [List.mem_cons, h.addedEnd]
    grind [Int32.lt_irrefl, Int32.lt_trans]

theorem Classified.cons_removed (h : Classified news olds ts)
    (hnews : ∀ n ∈ news, old.key < n.key) (holds : ∀ o ∈ olds, old.key < o.key) :
    Classified news (old :: olds) (.removed old :: ts) := by
  refine ⟨h.once_cons hnews holds, ?_, ?_, ?_, ?_⟩
  · intro n o
    rw [List.mem_cons, h.compared]
    grind [Int32.lt_irrefl]
  · intro o
    rw [List.mem_cons, h.removed]
    grind [Int32.lt_irrefl]
  · intro n
    rw [List.mem_cons, h.addedMiddle]
    grind [Int32.lt_irrefl, Int32.lt_trans]
  · intro n
    rw [List.mem_cons, h.addedEnd]
    grind [Int32.lt_irrefl, Int32.lt_trans]

theorem Classified.cons_addedMiddle (h : Classified news (old :: olds) ts)
    (hlt : new.key < old.key) (hnews : ∀ n ∈ news, new.key < n.key)
    (holds : ∀ o ∈ olds, old.key < o.key) :
    Classified (new :: news) (old :: olds) (.addedMiddle new :: ts) := by
  have hall : ∀ o ∈ old :: olds, new.key < o.key :=
    List.forall_mem_cons.mpr ⟨hlt, fun o ho => Int32.lt_trans hlt (holds o ho)⟩
  refine ⟨h.once_cons hnews hall, ?_, ?_, ?_, ?_⟩
  · intro n o
    rw [List.mem_cons, h.compared]
    grind [Int32.lt_irrefl]
  · intro o
    rw [List.mem_cons, h.removed]
    grind [Int32.lt_irrefl]
  · intro n
    rw [List.mem_cons, h.addedMiddle]
    grind [Int32.lt_irrefl, Int32.lt_trans]
  · intro n
    rw [List.mem_cons, h.addedEnd]
    grind [Int32.lt_irrefl, Int32.lt_trans]

theorem Classified.cons_addedEnd (h : Classified news [] ts)
    (hnews : ∀ n ∈ news, new.key < n.key) :
    Classified (new :: news) [] (.addedEnd new :: ts) := by
  refine ⟨h.once_cons hnews (by simp), ?_, ?_, ?_, ?_⟩
  · intro n o
    rw [List.mem_cons, h.compared]
    simp
  · intro o
    rw [List.mem_cons, h.removed]
    simp
  · intro n
    rw [List.mem_cons, h.addedMiddle]
    simp
  · intro n
    rw [List.mem_cons, h.addedEnd]
    simp

end Cases

theorem turns_classified {news olds : List TField} (hnews : Increasing news)
    (holds : Increasing olds) : Classified news olds (turns news olds) := by
  fun_induction turns news olds with
  | case1 => exact ⟨List.nodup_nil, by simp, by simp, by simp, by simp⟩
  | case2 old olds ih =>
    obtain ⟨hold, holds⟩ := List.pairwise_cons.mp holds
    exact (ih hnews holds).cons_removed (by simp) hold
  | case3 new news ih =>
    obtain ⟨hnew, hnews⟩ := List.pairwise_cons.mp hnews
    exact (ih hnews holds).cons_addedEnd hnew
  | case4 new news old olds hkey ih =>
    obtain ⟨hnew, hnews⟩ := List.pairwise_cons.mp hnews
    obtain ⟨hold, holds⟩ := List.pairwise_cons.mp holds
    exact (ih hnews holds).cons_compared hkey hnew hold
  | case5 new news old olds hkey hlt ih =>
    obtain ⟨hnew, hnews⟩ := List.pairwise_cons.mp hnews
    exact (ih hnews holds).cons_addedMiddle hlt hnew (List.pairwise_cons.mp holds).1
  | case6 new news old olds hkey hlt ih =>
    obtain ⟨hold, holds⟩ := List.pairwise_cons.mp holds
    have hgt : old.key < new.key :=
      Int32.lt_of_le_of_ne (Int32.not_lt.mp hlt) fun heq => hkey heq.symm
    refine (ih hnews holds).cons_removed (List.forall_mem_cons.mpr ⟨hgt, fun n hn => ?_⟩) hold
    exact Int32.lt_trans hgt ((List.pairwise_cons.mp hnews).1 n hn)

theorem Classified.of_perm {news news' olds olds' : List TField} {ts : List Turn}
    (h : Classified news olds ts) (hnews : news.Perm news') (holds : olds.Perm olds') :
    Classified news' olds' ts := by
  refine ⟨h.once, ?_, ?_, ?_, ?_⟩
  · simpa only [hnews.mem_iff, holds.mem_iff] using h.compared
  · simpa only [hnews.mem_iff, holds.mem_iff] using h.removed
  · simpa only [hnews.mem_iff, holds.mem_iff] using h.addedMiddle
  · simpa only [hnews.mem_iff, holds.mem_iff] using h.addedEnd

/-- `compare_single_struct` prints what its turns print; they are at most as many as the
    members of both structs and classify every id once. -/
theorem compareSingleStruct_classifies {new old : TStruct} (hnew : Built new) (hold : Built old)
    (oldStructName : String) :
    compareSingleStruct new old oldStructName =
        (turns new.sortedMembers old.sortedMembers).flatMap
          (Turn.reports (if oldStructName = "" then old.name else oldStructName)) ∧
      (turns new.sortedMembers old.sortedMembers).length ≤
        new.members.length + old.members.length ∧
      Increasing new.sortedMembers ∧ Increasing old.sortedMembers ∧
      Classified new.members old.members (turns new.sortedMembers old.sortedMembers) := by
  refine ⟨compareMembers_turns _ _ _, ?_, hnew.increasing, hold.increasing, ?_⟩
  · rw [← (sortedMembers_perm new).length_eq, ← (sortedMembers_perm old).length_eq]
    exact turns_length _ _
  · exact (turns_classified hnew.increasing hold.increasing).of_perm (sortedMembers_perm new)
      (sortedMembers_perm old)

end Merge

section Examples

/-- `struct S { 1: required i32 a, 3: required i32 c }` -/
def oldS : TStruct where
  program := ⟨"a.thrift", []⟩
  name := "S"
  members := [⟨.baseType .TYPE_I32 false, "a", 1, .T_REQUIRED, none, [], none⟩,
    ⟨.baseType .TYPE_I32 false, "c", 3, .T_REQUIRED, none, [], none⟩]

/-- `struct S { 4: required i32 d, 1: required i32 a, 2: i32 b }` -/
def newS : TStruct where
  program := ⟨"a.thrift", []⟩
  name := "S"
  members := [⟨.baseType .TYPE_I32 false, "d", 4, .T_REQUIRED, none, [], none⟩,
    ⟨.baseType .TYPE_I32 false, "a", 1, .T_REQUIRED, none, [], none⟩,
    ⟨.baseType .TYPE_I32 false, "b", 2, .T_OPT_IN_REQ_OUT, none, [], none⟩]

def i32Field (key : Int64) (requiredness : Option ReqKeyword) (name : String) : FieldDecl where
  identifier := some key
  requiredness
  type := .baseType .TYPE_I32 false
  name

theorem oldS_built : Built oldS := by
  have h : struct {} (fun _ => {}) 1 ⟨"a.thrift", []⟩ {} false "S"
      [i32Field 1 (some .required) "a", i32Field 3 (some .required) "c"] = .ok oldS := rfl
  exact struct_built h

theorem newS_built : Built newS := by
  have h : struct {} (fun _ => {}) 1 ⟨"a.thrift", []⟩ {} false "S"
      [i32Field 4 (some .required) "d", i32Field 1 (some .required) "a", i32Field 2 none "b"] =
        .ok newS := rfl
  exact struct_built h

theorem newS_classified :
    (turns newS.sortedMembers oldS.sortedMembers).map Turn.key = [1, 2, 3, 4] ∧
    Classified newS.members oldS.members (turns newS.sortedMembers oldS.sortedMembers) :=
  ⟨by decide +kernel, (compareSingleStruct_classifies newS_built oldS_built "").2.2.2.2⟩

end Examples

end Sparsam.AuditMerge
