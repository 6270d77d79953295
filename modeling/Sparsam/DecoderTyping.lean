import Sparsam.DecoderCalls

set_option autoImplicit false

/-!
# Types of decoded values

`Typed` is what a declared type means for a Ruby value, at every depth. A run
whose unchecked headers have the declared types, that skips no container inside
another and whose classes have typed defaults returns a typed object.
-/
namespace Sparsam.DecoderTyping
open WireProtocol RubyRuntime FieldInfoCache ExceptionState ObjectMethods
open SerializerWrite SerializerRead
open DecoderCalls

/-- A value of the declared type. A struct holds typed fields, a union a typed
    value under its tag; nothing typed is nil. -/
inductive Typed (sch : Schema) : FieldInfo → Value → Prop
  | byte (fi : FieldInfo) (n : ℤ) (type : fi.ftype = .BYTE) (range : -2 ^ 7 ≤ n ∧ n < 2 ^ 7) :
      Typed sch fi (.int n)
  | i16 (fi : FieldInfo) (n : ℤ) (type : fi.ftype = .I16) (range : -2 ^ 15 ≤ n ∧ n < 2 ^ 15) :
      Typed sch fi (.int n)
  | i32 (fi : FieldInfo) (n : ℤ) (type : fi.ftype = .I32) (range : -2 ^ 31 ≤ n ∧ n < 2 ^ 31) :
      Typed sch fi (.int n)
  | i64 (fi : FieldInfo) (n : ℤ) (type : fi.ftype = .I64) (range : -2 ^ 63 ≤ n ∧ n < 2 ^ 63) :
      Typed sch fi (.int n)
  | bool (fi : FieldInfo) (b : Bool) (type : fi.ftype = .BOOL) : Typed sch fi (.bool b)
  | double (fi : FieldInfo) (bits : UInt64) (type : fi.ftype = .DOUBLE) :
      Typed sch fi (.float bits)
  | string (fi : FieldInfo) (enc : Encoding) (bytes : List UInt8) (type : fi.ftype = .STRING) :
      Typed sch fi (.str enc bytes)
  | list (fi e : FieldInfo) (xs : List Value) (type : fi.ftype = .LIST)
      (element : fi.elementType = some e) (elems : ∀ x ∈ xs, Typed sch e x) :
      Typed sch fi (.ary xs)
  | set (fi e : FieldInfo) (xs : List Value) (type : fi.ftype = .SET)
      (element : fi.elementType = some e) (elems : ∀ x ∈ xs, Typed sch e x) :
      Typed sch fi (.set xs)
  | map (fi k e : FieldInfo) (kvs : List (Value × Value)) (type : fi.ftype = .MAP)
      (key : fi.keyType = some k) (element : fi.elementType = some e)
      (keys : ∀ kv ∈ kvs, Typed sch k kv.1) (values : ∀ kv ∈ kvs, Typed sch e kv.2) :
      Typed sch fi (.hash kvs)
  | struct (fi : FieldInfo) (oid : ℕ) (eigen : Bool) (ivars : List (ID × Value))
      (fields : FieldInfoMap) (type : fi.ftype = .STRUCT)
      (table : sch.fieldInfoMap fi.klass = some fields) (isStruct : sch.isUnion fi.klass = false)
      (held : ∀ e ∈ fields.entries, ivarGet ivars e.2.ivarName ≠ .nil →
        Typed sch e.2 (ivarGet ivars e.2.ivarName)) :
      Typed sch fi (.obj oid fi.klass eigen ivars)
  | unset (fi : FieldInfo) (oid : ℕ) (eigen : Bool) (ivars : List (ID × Value))
      (fields : FieldInfoMap) (type : fi.ftype = .STRUCT)
      (table : sch.fieldInfoMap fi.klass = some fields) (isUnion : sch.isUnion fi.klass = true)
      (tag : setField ivars = none) : Typed sch fi (.obj oid fi.klass eigen ivars)
  | union (fi : FieldInfo) (oid : ℕ) (eigen : Bool) (ivars : List (ID × Value))
      (fields : FieldInfoMap) (e : Int16 × FieldInfo) (type : fi.ftype = .STRUCT)
      (table : sch.fieldInfoMap fi.klass = some fields) (isUnion : sch.isUnion fi.klass = true)
      (member : e ∈ fields.entries) (tag : setField ivars = some e.2.symName)
      (held : Typed sch e.2 (ivarGet ivars e.2.ivarName)) :
      Typed sch fi (.obj oid fi.klass eigen ivars)

theorem Typed.not_sym {sch : Schema} {fi : FieldInfo} {s : ID} : ¬ Typed sch fi (.sym s) := by
  rintro ⟨⟩

/-- The values an integer type holds. -/
def inWidth (ttype : TType) (n : ℤ) : Bool :=
  match ttype with
  | .BYTE => decide (-2 ^ 7 ≤ n ∧ n < 2 ^ 7)
  | .I16 => decide (-2 ^ 15 ≤ n ∧ n < 2 ^ 15)
  | .I32 => decide (-2 ^ 31 ≤ n ∧ n < 2 ^ 31)
  | .I64 => decide (-2 ^ 63 ≤ n ∧ n < 2 ^ 63)
  | _ => false

mutual
def isTyped (sch : Schema) (fi : FieldInfo) : Value → Bool
  | .int n => inWidth fi.ftype n
  | .bool _ => fi.ftype == .BOOL
  | .float _ => fi.ftype == .DOUBLE
  | .str _ _ => fi.ftype == .STRING
  | .ary xs => fi.ftype == .LIST && fi.elementType.any fun e => allTyped sch e xs
  | .set xs => fi.ftype == .SET && fi.elementType.any fun e => allTyped sch e xs
  | .hash kvs =>
    fi.ftype == .MAP && fi.keyType.any fun k => fi.elementType.any fun e => entriesTyped sch k e kvs
  | .obj _ klass _ ivars =>
    fi.ftype == .STRUCT && klass == fi.klass && (sch.fieldInfoMap klass).any fun fields =>
      if sch.isUnion klass then
        (setField ivars).all fun f =>
          fields.entries.any fun e => e.2.symName == f && heldTyped sch false e.2 ivars
      else fields.entries.all fun e => heldTyped sch true e.2 ivars
  | _ => false

def allTyped (sch : Schema) (e : FieldInfo) : List Value → Bool
  | [] => true
  | x :: xs => isTyped sch e x && allTyped sch e xs

def entriesTyped (sch : Schema) (k e : FieldInfo) : List (Value × Value) → Bool
  | [] => true
  | (x, y) :: kvs => isTyped sch k x && isTyped sch e y && entriesTyped sch k e kvs

def heldTyped (sch : Schema) (nilOk : Bool) (e : FieldInfo) : List (ID × Value) → Bool
  | [] => nilOk
  | (name, v) :: rest =>
    if name = e.ivarName then (v.isNil && nilOk) || isTyped sch e v
    else heldTyped sch nilOk e rest
end

theorem allTyped_iff (sch : Schema) (e : FieldInfo) (xs : List Value) :
    allTyped sch e xs = true ↔ ∀ x ∈ xs, isTyped sch e x = true := by
  induction xs with
  | nil => simp [allTyped]
  | cons x xs ih => simp [allTyped, ih]

theorem entriesTyped_iff (sch : Schema) (k e : FieldInfo) (kvs : List (Value × Value)) :
    entriesTyped sch k e kvs = true ↔
      ∀ kv ∈ kvs, isTyped sch k kv.1 = true ∧ isTyped sch e kv.2 = true := by
  induction kvs with
  | nil => simp [entriesTyped]
  | cons kv kvs ih =>
    obtain ⟨x, y⟩ := kv
    simp only [entriesTyped, Bool.and_eq_true, ih, List.forall_mem_cons]

theorem heldTyped_iff (sch : Schema) (nilOk : Bool) (e : FieldInfo) (ivars : List (ID × Value)) :
    heldTyped sch nilOk e ivars = true ↔
      (ivarGet ivars e.ivarName = .nil ∧ nilOk = true) ∨
        isTyped sch e (ivarGet ivars e.ivarName) = true := by
  induction ivars with
  | nil => simp [heldTyped, isTyped]
  | cons d rest ih =>
    obtain ⟨name, v⟩ := d
    by_cases hn : name = e.ivarName
    · simp [heldTyped, ivarGet, hn]
    · simpa [heldTyped, ivarGet, hn] using ih

theorem isTyped_of_typed {sch : Schema} {fi : FieldInfo} {v : Value} (h : Typed sch fi v) :
    isTyped sch fi v = true := by
  induction h with
  | byte fi n type range => simpa [isTyped, inWidth, type] using range
  | i16 fi n type range => simpa [isTyped, inWidth, type] using range
  | i32 fi n type range => simpa [isTyped, inWidth, type] using range
  | i64 fi n type range => simpa [isTyped, inWidth, type] using range
  | bool fi b type => simp [isTyped, type]
  | double fi bits type => simp [isTyped, type]
  | string fi enc bytes type => simp [isTyped, type]
  | list fi e xs type element _ ih =>
    have hall := (allTyped_iff sch e xs).mpr ih
    simp [isTyped, type, element, hall]
  | set fi e xs type element _ ih =>
    have hall := (allTyped_iff sch e xs).mpr ih
    simp [isTyped, type, element, hall]
  | map fi k e kvs type key element _ _ ihk ihv =>
    have hall := (entriesTyped_iff sch k e kvs).mpr fun kv hkv => ⟨ihk kv hkv, ihv kv hkv⟩
    simp [isTyped, type, key, element, hall]
  | struct fi oid eigen ivars fields type table isStruct _ ih =>
    have hall : ∀ e ∈ fields.entries, heldTyped sch true e.2 ivars = true := by
      intro e he
      rw [heldTyped_iff]
      by_cases hn : ivarGet ivars e.2.ivarName = .nil
      · exact .inl ⟨hn, rfl⟩
      · exact .inr (ih e he hn)
    simpa [isTyped, type, table, isStruct] using fun a b he => hall (a, b) he
  | unset fi oid eigen ivars fields type table isUnion tag =>
    simp [isTyped, type, table, isUnion, tag]
  | union fi oid eigen ivars fields e type table isUnion member tag _ ih =>
    have hheld : heldTyped sch false e.2 ivars = true := by
      rw [heldTyped_iff]
      exact .inr ih
    have hany : fields.entries.any (fun e' => e'.2.symName == e.2.symName &&
        heldTyped sch false e'.2 ivars) = true :=
      List.any_eq_true.mpr ⟨e, member, by simp [hheld]⟩
    simp [isTyped, type, table, isUnion, tag, hany]

theorem typed_of_isTyped {sch : Schema} (fi : FieldInfo) (v : Value)
    (h : isTyped sch fi v = true) : Typed sch fi v := by
  induction v using Value.induct generalizing fi with
  | nil | sym | klass | foreign => simp [isTyped] at h
  | bool b => exact .bool fi b (by simpa [isTyped] using h)
  | float bits => exact .double fi bits (by simpa [isTyped] using h)
  | str enc bytes => exact .string fi enc bytes (by simpa [isTyped] using h)
  | int n =>
    simp only [isTyped, inWidth] at h
    split at h
    · exact .byte fi n ‹_› (of_decide_eq_true h)
    · exact .i16 fi n ‹_› (of_decide_eq_true h)
    · exact .i32 fi n ‹_› (of_decide_eq_true h)
    · exact .i64 fi n ‹_› (of_decide_eq_true h)
    · cases h
  | ary xs ih =>
    simp only [isTyped, Bool.and_eq_true, beq_iff_eq, Option.any_eq_true] at h
    obtain ⟨ht, e, he, hall⟩ := h
    exact .list fi e xs ht he fun x hx => ih x hx e ((allTyped_iff sch e xs).mp hall x hx)
  | set xs ih =>
    simp only [isTyped, Bool.and_eq_true, beq_iff_eq, Option.any_eq_true] at h
    obtain ⟨ht, e, he, hall⟩ := h
    exact .set fi e xs ht he fun x hx => ih x hx e ((allTyped_iff sch e xs).mp hall x hx)
  | hash kvs ih =>
    simp only [isTyped, Bool.and_eq_true, beq_iff_eq, Option.any_eq_true] at h
    obtain ⟨ht, k, hk, e, he, hall⟩ := h
    have hkv := (entriesTyped_iff sch k e kvs).mp hall
    exact .map fi k e kvs ht hk he (fun kv hm => (ih kv hm).1 k (hkv kv hm).1)
      fun kv hm => (ih kv hm).2 e (hkv kv hm).2
  | obj oid klass eigen ivars ih =>
    simp only [isTyped, Bool.and_eq_true, beq_iff_eq, Option.any_eq_true] at h
    obtain ⟨⟨ht, rfl⟩, fields, hf, h⟩ := h
    have held : ∀ e : FieldInfo, isTyped sch e (ivarGet ivars e.ivarName) = true →
        Typed sch e (ivarGet ivars e.ivarName) := by
      intro e he
      have hne : ivarGet ivars e.ivarName ≠ .nil := by
        intro hn
        simp [hn, isTyped] at he
      exact ih _ (ivarGet_mem hne) e he
    cases hu : sch.isUnion fi.klass with
    | false =>
      simp only [hu, Bool.false_eq_true, ↓reduceIte, List.all_eq_true] at h
      refine .struct fi oid eigen ivars fields ht hf hu fun e he hn => held e.2 ?_
      exact ((heldTyped_iff sch true e.2 ivars).mp (h e he)).resolve_left fun h0 => hn h0.1
    | true =>
      simp only [hu, ↓reduceIte] at h
      cases htag : setField ivars with
      | none => exact .unset fi oid eigen ivars fields ht hf hu htag
      | some f =>
        simp only [htag, Option.all_some, List.any_eq_true, Bool.and_eq_true, beq_iff_eq] at h
        obtain ⟨e, he, rfl, hheld⟩ := h
        refine .union fi oid eigen ivars fields e ht hf hu he htag (held e.2 ?_)
        exact ((heldTyped_iff sch false e.2 ivars).mp hheld).resolve_left (by simp)

instance (sch : Schema) (fi : FieldInfo) (v : Value) : Decidable (Typed sch fi v) :=
  decidable_of_iff (isTyped sch fi v = true) ⟨typed_of_isTyped fi v, isTyped_of_typed⟩

/-- The defaults of a class have the types of the fields they are for. -/
def DefaultsTyped (sch : Schema) (klass : VALUE) : Prop :=
  ∀ fields, sch.fieldInfoMap klass = some fields → ∀ d ∈ sch.defaultValues klass,
    ∀ e ∈ fields.entries, e.2.ivarName = "@" ++ d.1 → Typed sch e.2 d.2

/-- The steps that keep values typed. -/
def Clean (sch : Schema) : Event → Prop
  | .call .. => True
  | .header _ ttype fi => fi.ftype = ttype
  | .skip site .. => site = .field ∨ site = .member
  | .instance klass => DefaultsTyped sch klass

instance (sch : Schema) (klass : VALUE) : Decidable (DefaultsTyped sch klass) :=
  decidable_of_iff (∀ fields ∈ sch.fieldInfoMap klass, ∀ d ∈ sch.defaultValues klass,
    ∀ e ∈ fields.entries, e.2.ivarName = "@" ++ d.1 → Typed sch e.2 d.2) Iff.rfl

instance (sch : Schema) : DecidablePred (Clean sch)
  | .call .. => inferInstanceAs (Decidable True)
  | .header _ ttype fi => inferInstanceAs (Decidable (fi.ftype = ttype))
  | .skip site .. => inferInstanceAs (Decidable (site = .field ∨ site = .member))
  | .instance klass => inferInstanceAs (Decidable (DefaultsTyped sch klass))

/-- What a call of `readAny` gives back at its site. -/
def Returns (sch : Schema) (site : Site) (fi : FieldInfo) (v : Value) : Prop :=
  (v = .nil ∧ (site = .field ∨ site = .member)) ∨ Typed sch fi v

theorem Returns.typed {sch : Schema} {site : Site} {fi : FieldInfo} {v : Value}
    (h : Returns sch site fi v) (hs : site ≠ .field ∧ site ≠ .member) : Typed sch fi v := by
  rcases h with ⟨-, hf | hm⟩ | h
  · exact absurd hf hs.1
  · exact absurd hm hs.2
  · exact h

section Containers
variable (isUnion : VALUE → Bool)

theorem mem_setNew {ary : List Value} {x : Value} (h : x ∈ setNew isUnion ary) : x ∈ ary := by
  have hfold : ∀ (ary acc : List Value),
      x ∈ ary.foldl (setAdd isUnion) acc → x ∈ acc ∨ x ∈ ary := by
    intro ary
    induction ary with
    | nil => exact fun acc hx => .inl hx
    | cons y ys ih =>
      intro acc hx
      rcases ih _ hx with hacc | hys
      · unfold setAdd at hacc
        split_ifs at hacc
        · exact .inl hacc
        · rcases List.mem_append.mp hacc with hacc | hy
          · exact .inl hacc
          · exact .inr (by simp [List.mem_singleton.mp hy])
      · exact .inr (List.mem_cons_of_mem _ hys)
  rcases hfold ary [] h with h | h
  · simp at h
  · exact h

theorem hashAset_forall {K V : Value → Prop} {kvs : List (Value × Value)} {k v : Value}
    (h : ∀ e ∈ kvs, K e.1 ∧ V e.2) (hk : K k) (hv : V v) :
    ∀ e ∈ hashAset isUnion kvs k v, K e.1 ∧ V e.2 := by
  induction kvs with
  | nil => simpa [hashAset] using ⟨hk, hv⟩
  | cons e rest ih =>
    obtain ⟨k', v'⟩ := e
    obtain ⟨he, hrest⟩ := List.forall_mem_cons.mp h
    simp only [hashAset]
    split_ifs
    · exact List.forall_mem_cons.mpr ⟨⟨he.1, hv⟩, hrest⟩
    · exact List.forall_mem_cons.mpr ⟨he, ih hrest⟩

theorem hashNew_forall {K V : Value → Prop} (ret : List (Value × Value))
    (h : ∀ e ∈ ret, K e.1 ∧ V e.2) :
    ∀ e ∈ ret.foldl (fun h e => hashAset isUnion h e.1 e.2) [], K e.1 ∧ V e.2 := by
  have hfold : ∀ (ret acc : List (Value × Value)), (∀ e ∈ ret, K e.1 ∧ V e.2) →
      (∀ e ∈ acc, K e.1 ∧ V e.2) →
      ∀ e ∈ ret.foldl (fun h e => hashAset isUnion h e.1 e.2) acc, K e.1 ∧ V e.2 := by
    intro ret
    induction ret with
    | nil => exact fun acc _ hacc => hacc
    | cons e rest ih =>
      intro acc hret hacc
      obtain ⟨he, hrest⟩ := List.forall_mem_cons.mp hret
      exact ih _ hrest (hashAset_forall isUnion hacc he.1 he.2)
  exact hfold ret [] h (by simp)

end Containers

def Held (sch : Schema) (fields : FieldInfoMap) (ret : Instance) : Prop :=
  ∀ e ∈ fields.entries, ivarGet ret.ivars e.2.ivarName ≠ .nil →
    Typed sch e.2 (ivarGet ret.ivars e.2.ivarName)

section Objects
variable {sch : Schema} {klass : VALUE} {fields : FieldInfoMap} {ret : Instance}

theorem held_new (hf : sch.fieldInfoMap klass = some fields) (hd : DefaultsTyped sch klass)
    (oid : ℕ) : Held sch fields ⟨oid, klass, newIvars sch klass⟩ := by
  intro e he hne
  dsimp only at hne ⊢
  rcases newIvars_cases klass (by rw [hf]; rfl) with hnew | hnew
  · rw [hnew] at hne
    exact absurd rfl hne
  · rw [hnew] at hne ⊢
    rcases ivarGet_defaultIvars (sch.defaultValues klass) e.2.ivarName with h | ⟨d, hd', hn, hv⟩
    · exact absurd h hne
    · rw [hv]
      exact hd fields hf d hd' e he hn

theorem Held.set (h : Held sch fields ret) (hf : sch.fieldInfoMap klass = some fields)
    {e : Int16 × FieldInfo} (he : e ∈ fields.entries) {v : Value} (hv : Typed sch e.2 v) :
    Held sch fields (ret.set e.2.ivarName v) := by
  intro e' he'
  simp only [Instance.set, ivarGet_ivarSet]
  by_cases hn : e.2.ivarName = e'.2.ivarName
  · obtain rfl := sch.entry_unique hf he he' hn
    rw [if_pos rfl]
    exact fun _ => hv
  · rw [if_neg hn]
    exact h e' he'

theorem typed_struct (hf : sch.fieldInfoMap klass = some fields) (hu : sch.isUnion klass = false)
    (hk : ret.klass = klass) (h : Held sch fields ret) {fi : FieldInfo} (ht : fi.ftype = .STRUCT)
    (hfi : fi.klass = klass) : Typed sch fi ret.toValue := by
  subst hfi
  unfold Instance.toValue
  rw [hk]
  exact .struct fi ret.oid false ret.ivars fields ht hf hu h

theorem typed_union (hf : sch.fieldInfoMap klass = some fields) (hu : sch.isUnion klass = true)
    (oid : ℕ) {e : Int16 × FieldInfo} (he : e ∈ fields.entries) {v : Value}
    (hv : Typed sch e.2 v) {fi : FieldInfo} (ht : fi.ftype = .STRUCT) (hfi : fi.klass = klass) :
    Typed sch fi
      (((⟨oid, klass, []⟩ : Instance).set "@setfield" (.sym e.2.symName)).set
        e.2.ivarName v).toValue := by
  subst hfi
  simp only [Instance.set, Instance.toValue]
  have hget : ivarGet (ivarSet (ivarSet [] "@setfield" (.sym e.2.symName)) e.2.ivarName v)
      e.2.ivarName = v := by rw [ivarGet_ivarSet, if_pos rfl]
  by_cases hn : e.2.ivarName = "@setfield"
  · -- The member's own variable is the tag: what it holds is no symbol.
    refine .unset fi oid false _ fields ht hf hu ?_
    rw [hn] at hget ⊢
    unfold setField
    rw [hget]
    split
    · exact absurd hv Typed.not_sym
    · rfl
  · refine .union fi oid false _ fields e ht hf hu he ?_ (by rwa [hget])
    simp [setField, ivarGet_ivarSet, hn]

theorem typed_unset (hf : sch.fieldInfoMap klass = some fields) (hu : sch.isUnion klass = true)
    (oid : ℕ) {fi : FieldInfo} (ht : fi.ftype = .STRUCT) (hfi : fi.klass = klass) :
    Typed sch fi (⟨oid, klass, []⟩ : Instance).toValue := by
  subst hfi
  exact .unset fi oid false [] fields ht hf hu rfl

end Objects

section Readers
variable {σ : Type} (P : TProtocol σ) (sch : Schema)

def AllClean (st : RState σ) : Prop := ∀ e ∈ st.trace, Clean sch e

variable {sch}

theorem under_protocol {α : Type} (f : σ → Except TException (α × σ)) :
    Under (AllClean sch) (protocol f) fun _ => True :=
  fun _ => spec_protocol (fun _ _ _ h => ⟨h, trivial⟩) fun _ => trivial

theorem under_record (e : Event) :
    Under (AllClean sch) (record e : Reader σ Unit) fun _ => Clean sch e := by
  intro st
  refine spec_record fun h => ⟨fun e' he' => h e' ?_, h e ?_⟩
  · exact List.mem_append_left _ he'
  · exact List.mem_append_right _ (List.mem_singleton.mpr rfl)

theorem under_skipNType (n : ℕ) (ttype : TType) :
    Under (AllClean sch) (skipNType P n ttype) fun _ => True :=
  Under.bind (Under.times (under_protocol _) n) fun _ => Under.pure fun _ => trivial

theorem under_skipNPair (n : ℕ) (a b : TType) :
    Under (AllClean sch) (skipNPair P n a b) fun _ => True :=
  Under.bind (Under.times (Under.bind (under_protocol _) fun _ =>
    (under_protocol _).mono fun _ h _ => h) n) fun _ => Under.pure fun _ => trivial

/-- What `rb_class_new_instance` gives the loops. -/
structure Fresh (sch : Schema) (klass : VALUE) (ret : Instance) : Prop where
  klass_eq : ret.klass = klass
  union : sch.isUnion klass = true → ret.ivars = []
  struct : sch.isUnion klass = false → ∀ fields, sch.fieldInfoMap klass = some fields →
    Held sch fields ret

theorem under_newInstance (klass : VALUE) :
    Under (AllClean sch) (newInstance sch klass : Reader σ Instance) (Fresh sch klass) := by
  cases hf : sch.fieldInfoMap klass with
  | none =>
    rw [newInstance_none sch hf]
    exact Under.throw _ _
  | some fields =>
    by_cases hmakes : Makes sch klass
    · rw [newInstance_makes sch hf hmakes]
      refine Under.bind (under_record _) fun _ => ?_
      intro st
      refine Spec.bind (spec_newOid (Spec.pure fun h => ⟨h, fun hd => ?_⟩))
      exact ⟨rfl, newIvars_union hf, fun _ fields' hf' => held_new hf' hd st.nextOid⟩
    · obtain ⟨e, -, hnew⟩ := newInstance_raises sch hf hmakes
      rw [hnew]
      refine Under.bind (under_record _) fun _ => ?_
      intro st
      exact Spec.bind (spec_newOid (Spec.throw trivial))

theorem under_findFieldInfoMap (klass : VALUE) :
    Under (AllClean sch) (findFieldInfoMap sch klass : Reader σ FieldInfoMap)
      fun fields => sch.fieldInfoMap klass = some fields := by
  unfold findFieldInfoMap
  cases hf : sch.fieldInfoMap klass with
  | none => exact Under.throw _ _
  | some fields => exact Under.pure rfl

variable (sch)

def AnyTyped (n : ℕ) : Prop :=
  ∀ (site : Site) (ttype : TType) (fi : FieldInfo),
    Under (AllClean sch) (readAny P sch n site ttype fi) fun v =>
      fi.Generated sch.Cached → fi.ftype = ttype → Returns sch site fi v

def StructTyped (n : ℕ) (isUnion : Bool) (read : ℕ → VALUE → Reader σ Value) : Prop :=
  ∀ klass : VALUE, Under (AllClean sch) (read n klass) fun v =>
    sch.isUnion klass = isUnion →
      ∀ fi : FieldInfo, fi.ftype = .STRUCT → fi.klass = klass → Typed sch fi v

def FieldsTyped (n : ℕ) : Prop :=
  ∀ (klass : VALUE) (fields : FieldInfoMap) (ret : Instance),
    Under (AllClean sch) (readFields P sch n klass fields ret) fun v =>
      sch.fieldInfoMap klass = some fields → sch.isUnion klass = false → ret.klass = klass →
        Held sch fields ret → ∀ fi : FieldInfo, fi.ftype = .STRUCT → fi.klass = klass →
          Typed sch fi v

variable {P sch} {n : ℕ}

theorem fieldsTyped_succ (hany : AnyTyped P sch n)
    (hfields : FieldsTyped P sch n) : FieldsTyped P sch (n + 1) := by
  intro klass fields ret
  rw [readFields]
  refine Under.bind (under_protocol _) fun header => ?_
  obtain ⟨ftype, fid⟩ := header
  dsimp only
  split_ifs with hstop
  · exact Under.pure fun _ hf hu hk hheld fi ht hfi => typed_struct hf hu hk hheld ht hfi
  · cases hfind : fields.find? fid with
    | none =>
      refine Under.bind (under_protocol _) fun _ => Under.bind (under_protocol _) fun _ => ?_
      exact (hfields klass fields ret).mono fun v hv _ _ _ => hv
    | some fi =>
      have he : (fid, fi) ∈ fields.entries := (fields.find?_eq_some_iff fid fi).mp hfind
      dsimp only
      split_ifs with hne
      · exact Under.throw _ _
      · refine Under.bind (hany .field ftype fi) fun v => Under.bind (under_protocol _) fun _ => ?_
        refine (hfields klass fields _).mono fun w hw _ hret _ hf hu hk hheld => ?_
        -- A nil leaves the object as it is, anything else is typed.
        rcases hret (generated_find hf hfind) (not_not.mp hne) with ⟨rfl, -⟩ | hv
        · exact hw hf hu hk hheld
        · have hnil : ¬ v.isNil = true := by
            rw [Value.isNil_eq_true]
            rintro rfl
            cases hv
          rw [if_neg hnil] at hw
          exact hw hf hu hk (hheld.set hf he hv)

theorem structTyped_succ (hfields : FieldsTyped P sch n) :
    StructTyped sch (n + 1) false (readStruct P sch) := by
  intro klass
  rw [readStruct]
  refine Under.bind (under_newInstance klass) fun ret => ?_
  refine Under.bind (under_findFieldInfoMap klass) fun fields => ?_
  refine (hfields klass fields ret).mono fun v hv hf hfresh hu => ?_
  exact hv hf hu hfresh.klass_eq (hfresh.struct hu fields hf)

theorem unionTyped_succ (hany : AnyTyped P sch n) :
    StructTyped sch (n + 1) true (readUnion P sch) := by
  intro klass
  rw [readUnion]
  refine Under.bind (under_newInstance klass) fun ret => ?_
  refine Under.bind (under_findFieldInfoMap klass) fun fields => ?_
  have unset : sch.fieldInfoMap klass = some fields → Fresh sch klass ret →
      sch.isUnion klass = true → ∀ fi : FieldInfo, fi.ftype = .STRUCT → fi.klass = klass →
        Typed sch fi ret.toValue := by
    intro hf hfresh hu fi ht hfi
    obtain ⟨oid, k, ivars⟩ := ret
    obtain rfl : k = klass := hfresh.klass_eq
    obtain rfl : ivars = [] := hfresh.union hu
    exact typed_unset hf hu oid ht hfi
  refine Under.bind (under_protocol _) fun header => ?_
  obtain ⟨ftype, fid⟩ := header
  dsimp only
  split_ifs with hstop
  · exact Under.pure fun _ => unset
  · cases hfind : fields.find? fid with
    | none =>
      exact Under.bind (under_protocol _) fun _ => Under.bind (under_protocol _) fun _ =>
        Under.pure fun _ _ _ => unset
    | some fi =>
      have he : (fid, fi) ∈ fields.entries := (fields.find?_eq_some_iff fid fi).mp hfind
      refine Under.bind (under_record _) fun _ => Under.bind (hany .member ftype fi) fun v =>
        Under.bind (under_protocol _) fun _ => Under.bind (under_protocol _) fun header' => ?_
      obtain ⟨ftype', fid'⟩ := header'
      dsimp only
      split_ifs with hend hnil
      · exact Under.throw _ _
      · exact Under.pure fun _ _ _ _ _ => unset
      · refine Under.pure fun _ _ hret hheader _ hf hfresh hu fi' ht hfi => ?_
        have hv : Typed sch fi v := by
          rcases hret (generated_find hf hfind) hheader with ⟨rfl, -⟩ | hv
          · simp at hnil
          · exact hv
        obtain ⟨oid, k, ivars⟩ := ret
        obtain rfl : k = klass := hfresh.klass_eq
        obtain rfl : ivars = [] := hfresh.union hu
        exact typed_union hf hu oid he hv ht hfi

theorem under_elements (hany : AnyTyped P sch n) (fi : FieldInfo) (site : Site)
    (elementType : TType) (size : ℕ) {f : List Value → Reader σ Value} {R : Value → Prop}
    (hnil : site = .field ∨ site = .member → R .nil)
    (hf : ∀ vs, Under (AllClean sch) (f vs) fun v => (fi.Generated sch.Cached →
      ∀ e, fi.elementType = some e → ∀ x ∈ vs, Typed sch e x) → R v) :
    Under (AllClean sch) (match fi.elementType with
      | none => do
        record (.skip site elementType fi)
        skipNType P size elementType
        pure .nil
      | some e =>
        if elementType ≠ e.ftype then do
          record (.skip site elementType fi)
          skipNType P size elementType
          pure .nil
        else do
          let vs ← times (readAny P sch n .element elementType e) size
          f vs) R := by
  cases he : fi.elementType with
  | none =>
    exact Under.bind (under_record _) fun _ => Under.bind (under_skipNType P _ _) fun _ =>
      Under.pure fun _ hclean => hnil hclean
  | some e =>
    dsimp only
    split_ifs with hne
    · exact Under.bind (under_record _) fun _ => Under.bind (under_skipNType P _ _) fun _ =>
        Under.pure fun _ hclean => hnil hclean
    · refine Under.bind (Under.times (hany .element elementType e) size) fun vs => ?_
      refine (hf vs).mono fun v hv hvs => hv fun hg e' he' x hx => ?_
      obtain rfl : e = e' := Option.some.inj (he.symm.trans he')
      exact (hvs x hx (generated_element hg he) (not_not.mp hne).symm).typed (by simp)

theorem anyTyped_succ (hany : AnyTyped P sch n)
    (hstruct : StructTyped sch n false (readStruct P sch))
    (hunion : StructTyped sch n true (readUnion P sch)) :
    AnyTyped P sch (n + 1) := by
  intro site ttype fi
  unfold readAny
  refine Under.bind (under_record _) fun _ => ?_
  have scalar : ∀ {α : Type} (f : σ → Except TException (α × σ)) (g : α → Value) (t : TType),
      (∀ a, fi.ftype = t → Typed sch fi (g a)) →
      Under (AllClean sch) (do pure (g (← protocol f)) : Reader σ Value) fun v =>
        Clean sch (.call ttype fi) → fi.Generated sch.Cached → fi.ftype = t →
          Returns sch site fi v :=
    fun f g t hg => Under.bind (under_protocol f) fun a =>
      Under.pure fun _ _ _ ht => .inr (hg a ht)
  cases ttype with
  | I16 =>
    exact scalar P.readI16 (fun n => .int n.toInt) .I16
      fun a ht => .i16 fi _ ht ⟨a.le_toInt, a.toInt_lt⟩
  | I32 =>
    exact scalar P.readI32 (fun n => .int n.toInt) .I32
      fun a ht => .i32 fi _ ht ⟨a.le_toInt, a.toInt_lt⟩
  | I64 =>
    exact scalar P.readI64 (fun n => .int n.toInt) .I64
      fun a ht => .i64 fi _ ht ⟨a.le_toInt, a.toInt_lt⟩
  | BOOL => exact scalar P.readBool .bool .BOOL fun a ht => .bool fi a ht
  | DOUBLE => exact scalar P.readDouble .float .DOUBLE fun a ht => .double fi a ht
  | BYTE =>
    exact scalar P.readByte (fun n => .int n.toInt) .BYTE
      fun a ht => .byte fi _ ht ⟨a.le_toInt, a.toInt_lt⟩
  | STRING =>
    dsimp only
    split
    · exact scalar P.readBinary (.str .binary) .STRING fun a ht => .string fi _ a ht
    · exact scalar P.readString (.str .utf8) .STRING fun a ht => .string fi _ a ht
  | LIST =>
    refine Under.bind (under_protocol _) fun header => ?_
    refine under_elements hany fi site header.1 _ (fun hs _ _ _ _ => .inl ⟨rfl, hs⟩) fun vs => ?_
    refine Under.bind (under_protocol _) fun _ => Under.pure fun _ hvs _ _ hg ht => .inr ?_
    obtain ⟨e, he⟩ := exists_element hg (.inl ht)
    exact .list fi e vs ht he (hvs hg e he)
  | SET =>
    refine Under.bind (under_protocol _) fun header => ?_
    refine under_elements hany fi site header.1 _ (fun hs _ _ _ _ => .inl ⟨rfl, hs⟩) fun vs => ?_
    refine Under.bind (under_protocol _) fun _ => Under.pure fun _ hvs _ _ hg ht => .inr ?_
    obtain ⟨e, he⟩ := exists_element hg (.inr (.inl ht))
    exact .set fi e _ ht he fun x hx => hvs hg e he x (mem_setNew sch.isUnion hx)
  | MAP =>
    refine Under.bind (under_protocol _) fun header => ?_
    obtain ⟨keyType, valueType, size⟩ := header
    dsimp only
    cases hk : fi.keyType with
    | none =>
      exact Under.bind (under_record _) fun _ => Under.bind (under_skipNPair P _ _ _) fun _ =>
        Under.pure fun _ hclean _ _ _ _ => .inl ⟨rfl, hclean⟩
    | some k =>
      cases he : fi.elementType with
      | none =>
        exact Under.bind (under_record _) fun _ => Under.bind (under_skipNPair P _ _ _) fun _ =>
          Under.pure fun _ hclean _ _ _ _ => .inl ⟨rfl, hclean⟩
      | some e =>
        refine Under.bind (R := fun ret => ∀ p ∈ ret, fi.Generated sch.Cached →
          Typed sch k p.1 ∧ Typed sch e p.2) (Under.times ?_ _) fun ret => ?_
        · refine Under.bind (under_record _) fun _ => Under.bind (hany .key keyType k) fun key =>
            Under.bind (under_record _) fun _ => Under.bind (hany .value valueType e) fun value =>
              Under.pure fun hvalue hvh hkey hkh hg => ⟨?_, ?_⟩
          · exact (hkey (generated_key hg hk) hkh).typed (by simp)
          · exact (hvalue (generated_element hg he) hvh).typed (by simp)
        · refine Under.bind (under_protocol _) fun _ => Under.pure fun _ hret _ _ hg ht => .inr ?_
          have hall := hashNew_forall (K := Typed sch k) (V := Typed sch e) sch.isUnion ret
            fun p hp => hret p hp hg
          exact .map fi k e _ ht hk he (fun kv hkv => (hall kv hkv).1)
            fun kv hkv => (hall kv hkv).2
  | STRUCT =>
    refine Under.bind (under_protocol _) fun _ => ?_
    dsimp only
    split_ifs with hu
    · refine Under.bind (hunion fi.klass) fun v => Under.bind (under_protocol _) fun _ => ?_
      exact Under.pure fun _ hv _ _ _ ht => .inr (hv hu fi ht rfl)
    · refine Under.bind (hstruct fi.klass) fun v => Under.bind (under_protocol _) fun _ => ?_
      exact Under.pure fun _ hv _ _ _ ht => .inr (hv (by simpa using hu) fi ht rfl)
  | STOP | VOID | U64 | UTF8 | UTF16 | unknown =>
    exact Under.bind (under_protocol _) fun _ => Under.throw _ _

theorem readers_typed (P : TProtocol σ) (sch : Schema) (n : ℕ) :
    AnyTyped P sch n ∧ StructTyped sch n false (readStruct P sch) ∧
      StructTyped sch n true (readUnion P sch) ∧ FieldsTyped P sch n := by
  induction n with
  | zero =>
    refine ⟨fun site ttype fi => ?_, fun klass => ?_, fun klass => ?_, fun klass fields ret => ?_⟩
    · rw [readAny]
      exact Under.bind (under_record _) fun _ => Under.throw _ _
    all_goals exact Under.throw _ _
  | succ n ih =>
    obtain ⟨hany, hstruct, hunion, hfields⟩ := ih
    exact ⟨anyTyped_succ hany hstruct hunion, structTyped_succ hfields, unionTyped_succ hany,
      fieldsTyped_succ hany hfields⟩

end Readers

def resultOf {σ : Type} : EStateM.Result Err (RState σ) Value → Option Value
  | .ok v _ => some v
  | .error _ _ => none

open BinaryProtocol Loading

end Sparsam.DecoderTyping
