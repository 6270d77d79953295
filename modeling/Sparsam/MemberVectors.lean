import Mathlib.Algebra.Order.Group.Int
import Mathlib.Data.List.Nodup
import Sparsam.EqualRange
import Sparsam.AuditMerge

set_option autoImplicit false

/-!
# The two member vectors of a struct

A struct holds its fields by pointer, in the order they were appended and in
the order of their keys. `append` finds the place in the second vector by
binary search; what it finds is right as long as that vector is sorted.
-/
namespace Sparsam.MemberVectors
open ThriftTypes EqualRange FieldLists AuditMerge

/-- A `t_field*`. -/
abbrev FieldPtr := ℕ

/-- The fields in memory and the struct that some of them are appended to. -/
structure Store (τ : Type) where
  field : FieldPtr → TFieldOf τ
  members : List FieldPtr := []
  membersInIdOrder : List FieldPtr := []
  name : String := ""
  isUnion : Bool := false
  membersWithValue : ℕ := 0

/-- How a call of `append` ends. -/
inductive Outcome where
  | returned (result : Bool)
  | thrown (msg : String)
deriving DecidableEq

variable {τ : Type}

namespace Store

def key (s : Store τ) (p : FieldPtr) : ℤ := (s.field p).key.toInt

def fieldName (s : Store τ) (p : FieldPtr) : String := (s.field p).name

def keyCompare (s : Store τ) (a b : FieldPtr) : Bool := decide (s.key a < s.key b)

def getFieldByName (s : Store τ) (fieldName : String) : Option FieldPtr :=
  s.membersInIdOrder.find? fun p => s.fieldName p == fieldName

def setReq (s : Store τ) (p : FieldPtr) (req : Req) : Store τ :=
  { s with field := fun q => if q = p then { s.field q with req := req } else s.field q }

/-- The second half of `validate_union_member`: one member at most has a default. -/
def countDefault (s : Store τ) (p : FieldPtr) : Store τ × Option String :=
  if (s.field p).value.isSome then
    let s := { s with membersWithValue := s.membersWithValue + 1 }
    if 1 < s.membersWithValue then
      (s, some ("Error: Field " ++ s.fieldName p ++ " provides another default value for union " ++
        s.name))
    else (s, none)
  else (s, none)

def validateUnionMember (s : Store τ) (p : FieldPtr) : Store τ × Option String :=
  if s.isUnion ∧ s.name ≠ "" then
    -- unions can't have required fields
    if (s.field p).req = .T_REQUIRED then (s.setReq p .T_OPTIONAL).countDefault p
    else s.countDefault p
  else (s, none)

def append (s : Store τ) (elem : FieldPtr) : Store τ × Outcome :=
  let bounds := equalRange s.keyCompare s.membersInIdOrder elem 0 s.membersInIdOrder.length
  if bounds.1 ≠ bounds.2 then (s, .returned false)
  else if (s.getFieldByName (s.fieldName elem)).isSome then (s, .returned false)
  else
    let s := { s with
      members := s.members ++ [elem]
      membersInIdOrder := s.membersInIdOrder.insertIdx bounds.2 elem }
    match s.validateUnionMember elem with
    | (s, none) => (s, .returned true)
    | (s, some msg) => (s, .thrown msg)

/-- One call after another, with what each of them gave. -/
def appendAll (s : Store τ) : List FieldPtr → Store τ × List Outcome
  | [] => (s, [])
  | elem :: elems =>
    let r := s.append elem
    let rest := r.1.appendAll elems
    (rest.1, r.2 :: rest.2)

def fresh (field : FieldPtr → TFieldOf τ) (name : String) (isUnion : Bool) : Store τ :=
  { field, name, isUnion }

end Store

/-- Both vectors hold the same fields, one of them in the order of the keys. -/
structure InStep (s : Store τ) : Prop where
  sorted : s.membersInIdOrder.Pairwise fun a b => s.key a < s.key b
  perm : s.membersInIdOrder.Perm s.members
  names : (s.members.map s.fieldName).Nodup

def Present (s : Store τ) (elem : FieldPtr) : Prop :=
  ∃ p ∈ s.members, s.key p = s.key elem ∨ s.fieldName p = s.fieldName elem

theorem InStep.keys {s : Store τ} (h : InStep s) : (s.members.map s.key).Nodup := by
  have hsorted : (s.membersInIdOrder.map s.key).Pairwise (· < ·) := List.pairwise_map.mpr h.sorted
  have hnodup : (s.membersInIdOrder.map s.key).Nodup := hsorted.imp fun hlt => ne_of_lt hlt
  exact (h.perm.map s.key).nodup_iff.mp hnodup

theorem inStep_fresh (field : FieldPtr → TFieldOf τ) (name : String) (isUnion : Bool) :
    InStep (Store.fresh field name isUnion) :=
  ⟨.nil, .refl _, .nil⟩

/-- The vectors are the same, and so are the keys and names of all fields. -/
structure Keeps (s t : Store τ) : Prop where
  members : t.members = s.members
  membersInIdOrder : t.membersInIdOrder = s.membersInIdOrder
  key : t.key = s.key
  fieldName : t.fieldName = s.fieldName

theorem Keeps.refl (s : Store τ) : Keeps s s := ⟨rfl, rfl, rfl, rfl⟩

theorem setReq_keeps (s : Store τ) (p : FieldPtr) (req : Req) : Keeps s (s.setReq p req) := by
  refine ⟨rfl, rfl, ?_, ?_⟩
  · funext q
    unfold Store.key Store.setReq
    dsimp only
    split <;> rfl
  · funext q
    unfold Store.fieldName Store.setReq
    dsimp only
    split <;> rfl

theorem countDefault_keeps (s : Store τ) (p : FieldPtr) : Keeps s (s.countDefault p).1 := by
  unfold Store.countDefault
  split
  · dsimp only
    split <;> exact ⟨rfl, rfl, rfl, rfl⟩
  · exact Keeps.refl s

theorem Keeps.trans {s t u : Store τ} (h : Keeps s t) (h' : Keeps t u) : Keeps s u :=
  ⟨h'.members.trans h.members, h'.membersInIdOrder.trans h.membersInIdOrder,
    h'.key.trans h.key, h'.fieldName.trans h.fieldName⟩

theorem validateUnionMember_keeps (s : Store τ) (p : FieldPtr) :
    Keeps s (s.validateUnionMember p).1 := by
  unfold Store.validateUnionMember
  split
  · split
    · exact (setReq_keeps s p .T_OPTIONAL).trans (countDefault_keeps _ p)
    · exact countDefault_keeps s p
  · exact Keeps.refl s

/-- Where `append` puts a field that it takes. -/
structure Inserts (s : Store τ) (elem : FieldPtr) (t : Store τ) : Prop where
  members : t.members = s.members ++ [elem]
  membersInIdOrder : ∃ as bs,
    s.membersInIdOrder = as ++ bs ∧ t.membersInIdOrder = as ++ elem :: bs ∧
    (∀ a ∈ as, s.key a < s.key elem) ∧ ∀ b ∈ bs, s.key elem < s.key b
  key : t.key = s.key
  fieldName : t.fieldName = s.fieldName

theorem getFieldByName_isSome {s : Store τ} (h : InStep s) (fieldName : String) :
    (s.getFieldByName fieldName).isSome = true ↔ ∃ p ∈ s.members, s.fieldName p = fieldName := by
  unfold Store.getFieldByName
  rw [List.find?_isSome]
  refine exists_congr fun p => and_congr h.perm.mem_iff ?_
  exact beq_iff_eq

def insertBetween (s : Store τ) (as bs : List FieldPtr) (elem : FieldPtr) : Store τ :=
  { s with members := s.members ++ [elem], membersInIdOrder := as ++ elem :: bs }

theorem append_taken_name {s : Store τ} {elem : FieldPtr}
    (hname : (s.getFieldByName (s.fieldName elem)).isSome = true) :
    s.append elem = (s, .returned false) := by
  unfold Store.append
  dsimp only
  rw [if_pos hname, ite_self]

section Bounds
variable {s : Store τ} {elem : FieldPtr} {as es bs : List FieldPtr}
variable (hsplit : s.membersInIdOrder = as ++ es ++ bs)
  (hranges : Ranges s.keyCompare elem as es bs)
include hsplit hranges

theorem bounds_eq :
    equalRange s.keyCompare s.membersInIdOrder elem 0 s.membersInIdOrder.length =
      (as.length, as.length + es.length) := by
  rw [hsplit]
  refine equalRange_append hranges 0 _ (Nat.zero_le _) ?_ (by omega)
  rw [List.length_append, List.length_append]
  omega

theorem append_taken_key (hes : es ≠ []) : s.append elem = (s, .returned false) := by
  have hpos := List.length_pos_of_ne_nil hes
  unfold Store.append
  dsimp only
  rw [bounds_eq hsplit hranges, if_pos (by omega)]

theorem append_new (hes : es = []) (hname : ¬ (s.getFieldByName (s.fieldName elem)).isSome = true) :
    s.append elem = match (insertBetween s as bs elem).validateUnionMember elem with
      | (t, none) => (t, .returned true)
      | (t, some msg) => (t, .thrown msg) := by
  subst hes
  unfold Store.append
  dsimp only
  rw [bounds_eq hsplit hranges, if_neg (by simp), if_neg hname, hsplit, List.append_nil,
    List.length_nil, Nat.add_zero, insertIdx_length_append]
  rfl

theorem key_eq_iff (p : FieldPtr) (hp : p ∈ s.membersInIdOrder) :
    s.key p = s.key elem ↔ p ∈ es := by
  have hlt : ∀ q r, s.keyCompare q r = true ↔ s.key q < s.key r := fun q r => decide_eq_true_iff
  have hge : ∀ q r, s.keyCompare q r = false ↔ ¬ s.key q < s.key r := fun q r =>
    decide_eq_false_iff_not
  rw [hsplit, List.mem_append, List.mem_append] at hp
  constructor
  · intro heq
    rcases hp with (ha | he) | hb
    · have hbefore := (hlt _ _).mp (hranges.before p ha).1
      omega
    · exact he
    · have hafter := (hlt _ _).mp (hranges.after p hb).2
      omega
  · intro he
    have h1 := (hge _ _).mp (hranges.equal p he).1
    have h2 := (hge _ _).mp (hranges.equal p he).2
    omega

theorem present_iff (h : InStep s) :
    Present s elem ↔ es ≠ [] ∨ (s.getFieldByName (s.fieldName elem)).isSome = true := by
  rw [getFieldByName_isSome h]
  constructor
  · rintro ⟨p, hp, hkey | hname⟩
    · have hmem := (key_eq_iff hsplit hranges p (h.perm.mem_iff.mpr hp)).mp hkey
      exact .inl (List.ne_nil_of_mem hmem)
    · exact .inr ⟨p, hp, hname⟩
  · rintro (hes | ⟨p, hp, hname⟩)
    · obtain ⟨p, hp⟩ := List.exists_mem_of_ne_nil es hes
      have hmem : p ∈ s.membersInIdOrder := by
        rw [hsplit]
        simp [hp]
      exact ⟨p, h.perm.mem_iff.mp hmem, .inl ((key_eq_iff hsplit hranges p hmem).mpr hp)⟩
    · exact ⟨p, hp, .inr hname⟩

end Bounds

/-- Everything that `append` can do. -/
theorem append_cases {s : Store τ} (h : InStep s) (elem : FieldPtr) :
    (Present s elem ∧ s.append elem = (s, .returned false)) ∨
      (¬ Present s elem ∧ Inserts s elem (s.append elem).1 ∧
        (s.append elem).2 ≠ .returned false) := by
  obtain ⟨as, es, bs, hsplit, hranges⟩ := exists_ranges s.key h.sorted elem
  have hpresent := present_iff hsplit hranges h
  by_cases hes : es = []
  · by_cases hname : (s.getFieldByName (s.fieldName elem)).isSome = true
    · exact .inl ⟨hpresent.mpr (.inr hname), append_taken_name hname⟩
    · right
      have hkeeps := validateUnionMember_keeps (insertBetween s as bs elem) elem
      have hnew := append_new hsplit hranges hes hname
      subst hes
      rw [List.append_nil] at hsplit
      refine ⟨fun hp => (hpresent.mp hp).elim (fun hes => hes rfl) hname, ?_, ?_⟩
      · have hfst : (s.append elem).1 =
            ((insertBetween s as bs elem).validateUnionMember elem).1 := by
          rw [hnew]
          split <;> rename_i heq <;> rw [heq]
        rw [hfst]
        refine ⟨hkeeps.members, ⟨as, bs, hsplit, hkeeps.membersInIdOrder, ?_, ?_⟩, hkeeps.key,
          hkeeps.fieldName⟩
        · exact fun a ha => of_decide_eq_true (hranges.before a ha).1
        · exact fun b hb => of_decide_eq_true (hranges.after b hb).2
      · rw [hnew]
        split <;> simp
  · exact .inl ⟨hpresent.mpr (.inl hes), append_taken_key hsplit hranges hes⟩

theorem Inserts.inStep {s t : Store τ} {elem : FieldPtr} (h : InStep s) (hnew : ¬ Present s elem)
    (ht : Inserts s elem t) : InStep t := by
  obtain ⟨hmembers, ⟨as, bs, hsplit, hordered, hbefore, hafter⟩, hkey, hname⟩ := ht
  have hsorted := h.sorted
  have hperm := h.perm
  rw [hsplit] at hsorted hperm
  rw [List.pairwise_append] at hsorted
  obtain ⟨has, hbs, hcross⟩ := hsorted
  constructor
  · rw [hordered, hkey, List.pairwise_append, List.pairwise_cons]
    refine ⟨has, ⟨hafter, hbs⟩, fun a ha b hb => ?_⟩
    rcases List.mem_cons.mp hb with rfl | hb
    · exact hbefore a ha
    · exact hcross a ha b hb
  · rw [hordered, hmembers]
    calc as ++ elem :: bs
      _ |>.Perm (elem :: (as ++ bs)) := List.perm_middle
      _ |>.Perm (elem :: s.members) := hperm.cons elem
      _ |>.Perm (s.members ++ [elem]) := (List.perm_append_singleton elem s.members).symm
  · rw [hmembers, hname, List.map_append, List.nodup_append]
    refine ⟨h.names, by simp, ?_⟩
    intro name hold name' hnew' heq
    obtain ⟨p, hp, rfl⟩ := List.mem_map.mp hold
    simp only [List.map_cons, List.map_nil, List.mem_singleton] at hnew'
    exact hnew ⟨p, hp, .inr (heq.trans hnew')⟩

theorem append_inStep {s : Store τ} (h : InStep s) (elem : FieldPtr) :
    InStep (s.append elem).1 := by
  rcases append_cases h elem with ⟨-, heq⟩ | ⟨hnew, hinserts, -⟩
  · rw [heq]
    exact h
  · exact hinserts.inStep h hnew

/-- The calls that did not return false. -/
def accepted (elems : List FieldPtr) (outcomes : List Outcome) : List FieldPtr :=
  ((elems.zip outcomes).filter fun c => c.2 != .returned false).map Prod.fst

theorem appendAll_inStep {s : Store τ} (h : InStep s) (elems : List FieldPtr) :
    InStep (s.appendAll elems).1 := by
  induction elems generalizing s with
  | nil => exact h
  | cons elem elems ih => exact ih (append_inStep h elem)

theorem appendAll_members {s : Store τ} (h : InStep s) (elems : List FieldPtr) :
    (s.appendAll elems).1.members =
      s.members ++ accepted elems (s.appendAll elems).2 := by
  induction elems generalizing s with
  | nil => exact (List.append_nil _).symm
  | cons elem elems ih =>
    have hrest := ih (append_inStep h elem)
    change ((s.append elem).1.appendAll elems).1.members = _
    rw [hrest]
    change _ = s.members ++ accepted (elem :: elems)
      ((s.append elem).2 :: ((s.append elem).1.appendAll elems).2)
    unfold accepted
    rw [List.zip_cons_cons]
    rcases append_cases h elem with ⟨-, heq⟩ | ⟨-, hinserts, htaken⟩
    · rw [List.filter_cons_of_neg (by simp [heq]), heq]
    · rw [List.filter_cons_of_pos (by simpa using htaken), hinserts.members, List.map_cons,
        List.append_assoc]
      rfl

/-- After any calls of `append` on a new struct the vectors hold the same fields, sorted by key
    and in the order of the accepted calls, and the next call is refused exactly when its key or
    its name is taken. -/
theorem members_in_step (field : FieldPtr → TFieldOf τ) (name : String) (isUnion : Bool)
    (calls : List FieldPtr) :
    let r := (Store.fresh field name isUnion).appendAll calls
    r.1.membersInIdOrder.Pairwise (fun p q => r.1.key p < r.1.key q) ∧
    r.1.membersInIdOrder.Perm r.1.members ∧ r.1.members = accepted calls r.2 ∧
    (r.1.members.map r.1.key).Nodup ∧ (r.1.members.map r.1.fieldName).Nodup ∧
    ∀ elem, ((r.1.append elem).2 = .returned false ↔ Present r.1 elem) ∧
      ((r.1.append elem).2 = .returned false → (r.1.append elem).1 = r.1) := by
  intro r
  have h : InStep r.1 := appendAll_inStep (inStep_fresh field name isUnion) calls
  refine ⟨h.sorted, h.perm, appendAll_members (inStep_fresh field name isUnion) calls, h.keys,
    h.names, fun elem => ?_⟩
  rcases append_cases h elem with ⟨hpresent, heq⟩ | ⟨hnew, -, htaken⟩
  · rw [heq]
    exact ⟨iff_of_true rfl hpresent, fun _ => rfl⟩
  · exact ⟨iff_of_false htaken hnew, fun hrefused => absurd hrefused htaken⟩

section Struct
variable (base : TStruct)

def Store.toStruct (s : Store ThriftType) : TStruct :=
  { base with
    name := s.name
    members := s.members.map s.field
    isUnion := s.isUnion
    membersWithValue := s.membersWithValue }

variable {base} {s : Store ThriftType}

theorem sortedMembers_toStruct (h : InStep s) :
    (s.toStruct base).sortedMembers = s.membersInIdOrder.map s.field := by
  have hkey : ∀ p, s.key p = (s.field p).key.toInt := fun p => rfl
  have hnodup : ((s.toStruct base).members.map fun f => f.key).Nodup := by
    change ((s.members.map s.field).map fun f => f.key).Nodup
    rw [List.map_map]
    have hkeys := h.keys
    change (s.members.map (Int32.toInt ∘ fun p => (s.field p).key)).Nodup at hkeys
    rw [← List.map_map] at hkeys
    exact List.Nodup.of_map _ hkeys
  have hincreasing : Increasing (s.membersInIdOrder.map s.field) := by
    refine List.pairwise_map.mpr (h.sorted.imp fun hlt => ?_)
    exact Int32.lt_iff_toInt_lt.mpr hlt
  have hperm : ((s.toStruct base).sortedMembers).Perm (s.membersInIdOrder.map s.field) :=
    (sortedMembers_perm _).trans (h.perm.map s.field).symm
  exact hperm.eq_of_pairwise (fun f g _ _ hfg hgf => (Int32.lt_asymm hfg hgf).elim)
    (sortedMembers_increasing hnodup) hincreasing

theorem getFieldByName_toStruct (h : InStep s) (fieldName : String) :
    ((s.toStruct base).getFieldByName fieldName).isSome = (s.getFieldByName fieldName).isSome := by
  unfold TStructOf.getFieldByName Store.getFieldByName
  rw [sortedMembers_toStruct h, List.find?_map, Option.isSome_map]
  rfl

theorem setReq_toStruct (h : InStep s) {elem : FieldPtr} (helem : elem ∈ s.members) (req : Req) :
    (s.toStruct base).setReq (s.field elem).key req = (s.setReq elem req).toStruct base := by
  have hmembers : (s.members.map s.field).map
      (fun f => if f.key = (s.field elem).key then { f with req := req } else f) =
        s.members.map (s.setReq elem req).field := by
    rw [List.map_map]
    refine List.map_congr_left fun p hp => ?_
    have hsame : (s.field p).key = (s.field elem).key ↔ p = elem := by
      refine ⟨fun hkey => ?_, fun heq => by rw [heq]⟩
      exact List.inj_on_of_nodup_map h.keys hp helem (congrArg Int32.toInt hkey)
    change (if (s.field p).key = (s.field elem).key then _ else _) = if p = elem then _ else _
    rw [if_congr hsame rfl rfl]
  unfold TStructOf.setReq Store.toStruct
  dsimp only
  rw [hmembers]
  rfl

theorem countDefault_toStruct (s : Store ThriftType) (elem : FieldPtr) :
    (if (s.field elem).value.isSome then
      if 1 < (s.toStruct base).membersWithValue + 1 then
        failure ("Error: Field " ++ (s.field elem).name ++
          " provides another default value for union " ++ (s.toStruct base).name)
      else pure { s.toStruct base with
        membersWithValue := (s.toStruct base).membersWithValue + 1 }
    else pure (s.toStruct base) : Compile TStruct) =
      match s.countDefault elem with
      | (t, none) => .ok (t.toStruct base)
      | (_, some msg) => .error (.failure msg) := by
  unfold Store.countDefault
  by_cases hvalue : (s.field elem).value.isSome = true
  · rw [if_pos hvalue, if_pos hvalue]
    change (if 1 < s.membersWithValue + 1 then _ else _) = _
    by_cases hmore : 1 < s.membersWithValue + 1
    · rw [if_pos hmore]
      dsimp only
      rw [if_pos hmore]
      rfl
    · rw [if_neg hmore]
      dsimp only
      rw [if_neg hmore]
      rfl
  · rw [if_neg hvalue, if_neg hvalue]
    rfl

theorem validateUnionMember_toStruct (h : InStep s) {elem : FieldPtr} (helem : elem ∈ s.members) :
    (s.toStruct base).validateUnionMember (s.field elem) =
      match s.validateUnionMember elem with
      | (t, none) => .ok (t.toStruct base)
      | (_, some msg) => .error (.failure msg) := by
  unfold TStructOf.validateUnionMember Store.validateUnionMember
  change (if s.isUnion = true ∧ s.name ≠ "" then _ else _) = _
  by_cases hunion : s.isUnion = true ∧ s.name ≠ ""
  · rw [if_pos hunion, if_pos hunion]
    by_cases hreq : (s.field elem).req = .T_REQUIRED
    · dsimp only
      rw [if_pos hreq, if_pos hreq, setReq_toStruct h helem]
      have hcount := @countDefault_toStruct base (s.setReq elem .T_OPTIONAL) elem
      have hfield : (s.setReq elem .T_OPTIONAL).field elem =
          { s.field elem with req := .T_OPTIONAL } := if_pos rfl
      rw [hfield] at hcount
      exact hcount
    · dsimp only
      rw [if_neg hreq, if_neg hreq]
      exact countDefault_toStruct s elem
  · rw [if_neg hunion, if_neg hunion]
    rfl

/-- The vectors do what the struct of the other modules does. -/
theorem append_toStruct (h : InStep s) (elem : FieldPtr) :
    (s.toStruct base).append (s.field elem) = match s.append elem with
      | (_, .returned false) => .ok none
      | (t, .returned true) => .ok (some (t.toStruct base))
      | (_, .thrown msg) => .error (.failure msg) := by
  obtain ⟨as, es, bs, hsplit, hranges⟩ := exists_ranges s.key h.sorted elem
  have hany : ((s.toStruct base).members.any fun f => f.key == (s.field elem).key) = true ↔
      es ≠ [] := by
    rw [List.any_eq_true]
    constructor
    · rintro ⟨f, hf, hkey⟩
      obtain ⟨p, hp, rfl⟩ := List.mem_map.mp hf
      have heq : s.key p = s.key elem := congrArg Int32.toInt (beq_iff_eq.mp hkey)
      exact List.ne_nil_of_mem ((key_eq_iff hsplit hranges p (h.perm.mem_iff.mpr hp)).mp heq)
    · intro hes
      obtain ⟨p, hp⟩ := List.exists_mem_of_ne_nil es hes
      have hmem : p ∈ s.membersInIdOrder := by
        rw [hsplit]
        simp [hp]
      have heq := (key_eq_iff hsplit hranges p hmem).mpr hp
      exact ⟨s.field p, List.mem_map_of_mem (h.perm.mem_iff.mp hmem),
        beq_iff_eq.mpr (Int32.toInt_inj.mp heq)⟩
  unfold TStructOf.append
  by_cases hes : es = []
  · rw [if_neg fun hp => hany.mp hp hes]
    by_cases hname : (s.getFieldByName (s.fieldName elem)).isSome = true
    · rw [if_pos (by rw [getFieldByName_toStruct h]; exact hname), append_taken_name hname]
      rfl
    · rw [if_neg (by rw [getFieldByName_toStruct h]; exact hname),
        append_new hsplit hranges hes hname]
      have hnew : ¬ Present s elem := fun hp =>
        ((present_iff hsplit hranges h).mp hp).elim (fun hne => hne hes) hname
      subst hes
      rw [List.append_nil] at hsplit
      have hstep : InStep (insertBetween s as bs elem) := by
        refine Inserts.inStep h hnew ⟨rfl, ⟨as, bs, hsplit, rfl, ?_, ?_⟩, rfl, rfl⟩
        · exact fun a ha => of_decide_eq_true (hranges.before a ha).1
        · exact fun b hb => of_decide_eq_true (hranges.after b hb).2
      have helem : elem ∈ (insertBetween s as bs elem).members := by simp [insertBetween]
      have hvalidate := @validateUnionMember_toStruct base _ hstep elem helem
      have hmembers :
          { s.toStruct base with members := (s.toStruct base).members ++ [s.field elem] } =
          (insertBetween s as bs elem).toStruct base := by
        unfold Store.toStruct insertBetween
        simp
      rw [hmembers]
      change ((insertBetween s as bs elem).toStruct base).validateUnionMember
        ((insertBetween s as bs elem).field elem) >>= _ = _
      rw [hvalidate]
      rcases (insertBetween s as bs elem).validateUnionMember elem with ⟨t, _ | msg⟩ <;> rfl
  · rw [if_pos (hany.mpr hes), append_taken_key hsplit hranges hes]
    rfl

end Struct

end Sparsam.MemberVectors
