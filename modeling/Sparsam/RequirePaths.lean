import Sparsam.RubyStrings
import Sparsam.ThriftParser

set_option autoImplicit false

/-!
# The files that `require` looks for

The generator computes the path of a types file three times: it makes the
directories one after the other, and it prints the path into the `require` lines
of the constants file and of every program that includes this one.
-/
namespace Sparsam.RequirePaths
open ThriftTypes ThriftParser RubyStrings

/-- `find(sep)` with the two calls of `substr` around it. -/
def cut (sep : Char) : List Char → Option (List Char × List Char)
  | [] => none
  | c :: cs => if c = sep then some ([], cs) else (cut sep cs).map fun r => (c :: r.1, r.2)

theorem cut_some {sep : Char} {s before after : List Char} (h : cut sep s = some (before, after)) :
    s = before ++ sep :: after := by
  fun_induction cut sep s generalizing before after with
  | case1 => cases h
  | case2 cs =>
    obtain ⟨rfl, rfl⟩ := Prod.mk.inj (Option.some.inj h)
    rfl
  | case3 c cs _ ih =>
    obtain ⟨⟨before', after'⟩, hr, heq⟩ := Option.map_eq_some_iff.mp h
    obtain ⟨rfl, rfl⟩ := Prod.mk.inj heq
    rw [ih hr]
    rfl

theorem cut_none {sep : Char} {s : List Char} : cut sep s = none ↔ sep ∉ s := by
  fun_induction cut sep s with
  | case1 => simp
  | case2 => simp
  | case3 c cs hc ih =>
    rw [Option.map_eq_none_iff, ih, List.mem_cons]
    simp [Ne.symm hc]

theorem cut_length {sep : Char} {s before after : List Char}
    (h : cut sep s = some (before, after)) : after.length < s.length := by
  rw [cut_some h, List.length_append, List.length_cons]
  omega

/-- The loop of `underscore`, which passes over each letter it has made small. -/
def underscoreRest : List Char → List Char
  | [] => []
  | c :: cs =>
    if c.isUpper then '_' :: c.toLower :: underscoreRest cs else c :: underscoreRest cs

def underscore : List Char → List Char
  | [] => []
  | c :: cs => c.toLower :: underscoreRest cs

/-- The loop of `rb_namespace_to_path_prefix` and what follows it. -/
def pathPrefixLoop (pathPrefix namespacesLeft : List Char) : List Char :=
  match _h : cut '.' namespacesLeft with
  | some (part, rest) => pathPrefixLoop (pathPrefix ++ underscore part ++ ['/']) rest
  | none =>
    if 0 < namespacesLeft.length then pathPrefix ++ underscore namespacesLeft ++ ['/']
    else pathPrefix
termination_by namespacesLeft.length
decreasing_by exact cut_length _h

def rbNamespaceToPathPrefix (rbNamespace : String) : List Char :=
  pathPrefixLoop [] rbNamespace.toList

/-- What the generator knows beside the program; a run hands its output path on to the
    programs that are included. -/
structure Generator where
  namespaced : Bool
  outPath : String
  isOutPathAbsolute : Bool

def getOutDir (g : Generator) : List Char :=
  if g.isOutPathAbsolute then g.outPath.toList ++ ['/']
  else g.outPath.toList ++ "gen-ruby".toList ++ ['/']

/-- The loop of `init_generator`: the directories it makes and the last of them. -/
def makeDirs (subdir dir : List Char) : List (List Char) × List Char :=
  match _h : cut '/' dir with
  | some (part, rest) =>
    let subdir := subdir ++ part ++ ['/']
    let (made, last) := makeDirs subdir rest
    (subdir :: made, last)
  | none => ([], subdir)
termination_by dir.length
decreasing_by exact cut_length _h

/-- What `init_generator` makes and opens, and the `require` line of the constants. -/
structure Files where
  made : List (List Char)
  requirePrefix : List Char
  typesName : List Char
  constsName : List Char
  constsRequire : List Char

def initGenerator (g : Generator) (p : TProgram) : Files :=
  let requirePrefix :=
    if g.namespaced then rbNamespaceToPathPrefix (getNamespace p "rb") else []
  let (made, namespaceDir) :=
    if g.namespaced then makeDirs (getOutDir g) requirePrefix else ([], getOutDir g)
  let name := underscore (programName p.path).toList
  { made := getOutDir g :: made
    requirePrefix
    typesName := namespaceDir ++ name ++ "_types.rb".toList
    constsName := namespaceDir ++ name ++ "_constants.rb".toList
    constsRequire := "require '".toList ++ requirePrefix ++ name ++ "_types'\n".toList }

/-- The `require` line of `render_includes` for one program. -/
def requireLine (g : Generator) (included : TProgram) : List Char :=
  if g.namespaced then
    "require '".toList ++ rbNamespaceToPathPrefix (getNamespace included "rb") ++
      underscore (programName included.path).toList ++ "_types'\n".toList
  else "require '".toList ++ underscore (programName included.path).toList ++ "_types'\n".toList

def renderIncludes (g : Generator) (includes : List TProgram) : List Char :=
  includes.flatMap (requireLine g) ++ (if 0 < includes.length then ['\n'] else [])

/-- What comes before `.rb` in the name of the types file, seen from the output directory. -/
def requirePath (g : Generator) (p : TProgram) : List Char :=
  (initGenerator g p).requirePrefix ++ underscore (programName p.path).toList ++ "_types".toList

/-- The path that Ruby reads in a `require` line, and the text after the line. -/
def readRequire (text : List Char) : Option (List Char × List Char) :=
  if "require '".toList.isPrefixOf text then
    match readQuoted (Char.ofNat 39) (text.drop "require '".toList.length) with
    | some (path, '\n' :: rest) => some (path, rest)
    | _ => none
  else none

def readRequires : ℕ → List Char → Option (List (List Char) × List Char)
  | 0, text => some ([], text)
  | n + 1, text => do
    let (path, text) ← readRequire text
    let (paths, text) ← readRequires n text
    some (path :: paths, text)

section Directories

def Closed (path : List Char) : Prop := path = [] ∨ path.getLast? = some '/'

theorem pathPrefixLoop_closed {pathPrefix left : List Char} (h : Closed pathPrefix) :
    Closed (pathPrefixLoop pathPrefix left) := by
  fun_induction pathPrefixLoop pathPrefix left with
  | case1 pathPrefix left part rest _ ih => exact ih (.inr (by simp))
  | case2 => exact .inr (by simp)
  | case3 => exact h

theorem requirePrefix_closed (g : Generator) (p : TProgram) :
    Closed (initGenerator g p).requirePrefix := by
  unfold initGenerator
  dsimp only
  split
  · exact pathPrefixLoop_closed (.inl rfl)
  · exact .inl rfl

theorem makeDirs_last {subdir dir : List Char} (h : Closed dir) :
    (makeDirs subdir dir).2 = subdir ++ dir := by
  fun_induction makeDirs subdir dir with
  | case1 subdir dir part rest hcut sub made last heq ih =>
    have hdir := cut_some hcut
    have hrest : Closed rest := by
      rcases h with h | h
      · rw [hdir] at h
        simp at h
      · cases rest with
        | nil => exact .inl rfl
        | cons c rest =>
          rw [hdir, List.getLast?_append_cons, List.getLast?_cons_cons] at h
          exact .inr h
    have hlast := ih hrest
    rw [heq] at hlast
    change last = _
    rw [show last = sub ++ rest from hlast, hdir]
    simp [sub]
  | case2 subdir dir hcut =>
    rcases h with rfl | h
    · simp
    · exact absurd (List.mem_of_getLast? h) (cut_none.mp hcut)

theorem makeDirs_mem (subdir dir : List Char) :
    (makeDirs subdir dir).2 ∈ subdir :: (makeDirs subdir dir).1 := by
  fun_induction makeDirs subdir dir with
  | case1 subdir dir part rest hcut sub made last heq ih =>
    rw [heq] at ih
    exact List.mem_cons_of_mem _ ih
  | case2 => exact List.mem_singleton.mpr rfl

end Directories

section Reading
variable {g : Generator} {p : TProgram}

def Plain (s : List Char) : Prop := ∀ c ∈ s, c ≠ Char.ofNat 39 ∧ c ≠ '\\'

theorem isLower_toLower {c : Char} (h : c.isUpper = true) : c.toLower.isLower = true := by
  replace h : c.val ≥ 'A'.val ∧ c.val ≤ 'Z'.val := of_decide_eq_true h
  have hlo : 'A'.val.toNat ≤ c.val.toNat := h.1
  have hhi : c.val.toNat ≤ 'Z'.val.toNat := h.2
  have hval : c.toLower.val = c.val + ('a'.val - 'A'.val) := by
    unfold Char.toLower
    rw [dif_pos h]
  have hnat : c.toLower.val.toNat = c.val.toNat + 32 := by
    rw [hval, UInt32.toNat_add]
    change (c.val.toNat + 32) % 2 ^ 32 = _
    change c.val.toNat ≤ 90 at hhi
    omega
  refine Bool.and_eq_true_iff.mpr ⟨decide_eq_true ?_, decide_eq_true ?_⟩
  · change 'a'.val.toNat ≤ c.toLower.val.toNat
    change 65 ≤ c.val.toNat at hlo
    change 97 ≤ _
    omega
  · change c.toLower.val.toNat ≤ 'z'.val.toNat
    change c.val.toNat ≤ 90 at hhi
    change _ ≤ 122
    omega

theorem toLower_ne {c d : Char} (h : c ≠ d) (hd : d.isLower = false) : c.toLower ≠ d := by
  by_cases hc : c.isUpper = true
  · rintro rfl
    rw [isLower_toLower hc] at hd
    cases hd
  · have hid : c.toLower = c := by
      replace hc : ¬ (c.val ≥ 'A'.val ∧ c.val ≤ 'Z'.val) := fun h => hc (decide_eq_true h)
      unfold Char.toLower
      rw [dif_neg hc]
    rwa [hid]

theorem Plain.append {s t : List Char} (hs : Plain s) (ht : Plain t) : Plain (s ++ t) :=
  fun c hc => (List.mem_append.mp hc).elim (hs c) (ht c)

theorem plain_toLower {c : Char} (h : c ≠ Char.ofNat 39 ∧ c ≠ '\\') :
    c.toLower ≠ Char.ofNat 39 ∧ c.toLower ≠ '\\' :=
  ⟨toLower_ne h.1 (by decide), toLower_ne h.2 (by decide)⟩

theorem plain_underscoreRest {s : List Char} (h : Plain s) : Plain (underscoreRest s) := by
  induction s with
  | nil => exact h
  | cons c s ih =>
    obtain ⟨hc, hs⟩ := List.forall_mem_cons.mp h
    unfold underscoreRest
    split
    · exact List.forall_mem_cons.mpr ⟨by decide,
        List.forall_mem_cons.mpr ⟨plain_toLower hc, ih hs⟩⟩
    · exact List.forall_mem_cons.mpr ⟨hc, ih hs⟩

theorem plain_underscore {s : List Char} (h : Plain s) : Plain (underscore s) := by
  cases s with
  | nil => exact h
  | cons c s =>
    obtain ⟨hc, hs⟩ := List.forall_mem_cons.mp h
    exact List.forall_mem_cons.mpr ⟨plain_toLower hc, plain_underscoreRest hs⟩

theorem plain_pathPrefixLoop {pathPrefix left : List Char} (hpre : Plain pathPrefix)
    (hleft : Plain left) : Plain (pathPrefixLoop pathPrefix left) := by
  have hslash : Plain ['/'] := by
    intro c hc
    rw [List.mem_singleton.mp hc]
    decide
  fun_induction pathPrefixLoop pathPrefix left with
  | case1 pathPrefix left part rest hcut ih =>
    rw [cut_some hcut] at hleft
    have hpart : Plain part := fun c hc => hleft c (by simp [hc])
    have hrest : Plain rest := fun c hc => hleft c (by simp [hc])
    exact ih ((hpre.append (plain_underscore hpart)).append hslash) hrest
  | case2 => exact (hpre.append (plain_underscore hleft)).append hslash
  | case3 => exact hpre

def PlainProgram (p : TProgram) : Prop :=
  Plain (getNamespace p "rb").toList ∧ Plain (programName p.path).toList

theorem plain_requirePath (h : PlainProgram p) : Plain (requirePath g p) := by
  have htypes : Plain "_types".toList := by
    unfold Plain
    decide
  unfold requirePath
  refine (Plain.append ?_ (plain_underscore h.2)).append htypes
  unfold initGenerator
  dsimp only
  split
  · exact plain_pathPrefixLoop (fun c hc => absurd hc List.not_mem_nil) h.1
  · exact fun c hc => absurd hc List.not_mem_nil

theorem requireLine_eq :
    requireLine g p = "require '".toList ++ requirePath g p ++ "'\n".toList := by
  have hsplit : "_types'\n".toList = "_types".toList ++ "'\n".toList := by decide
  unfold requireLine requirePath initGenerator
  dsimp only
  rw [hsplit]
  split
  · simp only [List.append_assoc]
  · simp only [List.append_assoc, List.nil_append]

theorem constsRequire_eq : (initGenerator g p).constsRequire =
    "require '".toList ++ requirePath g p ++ "'\n".toList := by
  have hsplit : "_types'\n".toList = "_types".toList ++ "'\n".toList := by decide
  change "require '".toList ++ (initGenerator g p).requirePrefix ++
    underscore (programName p.path).toList ++ "_types'\n".toList = _
  unfold requirePath
  rw [hsplit]
  simp only [List.append_assoc]

theorem readRequire_line {path : List Char} (h : Plain path) (rest : List Char) :
    readRequire ("require '".toList ++ path ++ "'\n".toList ++ rest) = some (path, rest) := by
  have hquote : "'\n".toList = [Char.ofNat 39, '\n'] := by decide
  unfold readRequire
  rw [List.append_assoc, List.append_assoc, if_pos (by simp), List.drop_left, hquote]
  rw [List.cons_append, readQuoted_literal h]
  rfl

theorem readRequires_lines {includes : List TProgram} (h : ∀ p ∈ includes, PlainProgram p)
    (rest : List Char) :
    readRequires includes.length (includes.flatMap (requireLine g) ++ rest) =
      some (includes.map (requirePath g), rest) := by
  induction includes with
  | nil => rfl
  | cons p includes ih =>
    obtain ⟨hp, hincludes⟩ := List.forall_mem_cons.mp h
    rw [List.flatMap_cons, List.append_assoc, requireLine_eq, List.length_cons]
    unfold readRequires
    rw [readRequire_line (plain_requirePath hp)]
    change (readRequires _ _ >>= _) = _
    rw [ih hincludes]
    rfl

end Reading

/-- The types file stands where its directory was made, and every `require` line, of the
    including programs and of the constants, reads as its path without `.rb`. -/
theorem types_file_required (g : Generator) :
    (∀ p, (initGenerator g p).typesName = getOutDir g ++ requirePath g p ++ ".rb".toList ∧
      ∃ dir ∈ (initGenerator g p).made, (initGenerator g p).typesName =
        dir ++ underscore (programName p.path).toList ++ "_types.rb".toList) ∧
    (∀ p, PlainProgram p →
      readRequire (initGenerator g p).constsRequire = some (requirePath g p, [])) ∧
    ∀ includes : List TProgram, (∀ p ∈ includes, PlainProgram p) → ∃ rest,
      readRequires includes.length (renderIncludes g includes) =
        some (includes.map (requirePath g), rest) := by
  refine ⟨fun p => ?_, fun p hp => ?_, fun includes h => ⟨_, readRequires_lines h _⟩⟩
  · have hdir : ∃ dir ∈ (initGenerator g p).made,
        dir = getOutDir g ++ (initGenerator g p).requirePrefix ∧ (initGenerator g p).typesName =
          dir ++ underscore (programName p.path).toList ++ "_types.rb".toList := by
      have hclosed := requirePrefix_closed g p
      unfold initGenerator at hclosed ⊢
      dsimp only at hclosed ⊢
      split
      · rename_i hnamespaced
        rw [if_pos hnamespaced] at hclosed
        exact ⟨_, makeDirs_mem _ _, makeDirs_last hclosed, rfl⟩
      · exact ⟨_, List.mem_cons_self, (List.append_nil _).symm, rfl⟩
    obtain ⟨dir, hmade, hpath, hname⟩ := hdir
    refine ⟨?_, dir, hmade, hname⟩
    have hsplit : "_types.rb".toList = "_types".toList ++ ".rb".toList := by decide
    rw [hname, hpath, hsplit]
    unfold requirePath
    simp only [List.append_assoc]
  · have hread := readRequire_line (plain_requirePath (g := g) hp) []
    rw [List.append_nil] at hread
    rw [constsRequire_eq, hread]

/-- `FooBar.thrift` with `namespace rb Acme.MyApp` -/
def fooBar : TProgram := ⟨"dir/FooBar.thrift", [("rb", "Acme.MyApp")]⟩

theorem fooBar_required :
    (initGenerator ⟨true, "./", false⟩ fooBar).typesName =
      "./gen-ruby/acme/my_app/foo_bar_types.rb".toList ∧
    ∃ rest, readRequires 1 (renderIncludes ⟨true, "./", false⟩ [fooBar]) =
      some (["acme/my_app/foo_bar_types".toList], rest) := by
  have hplain : ∀ p ∈ [fooBar], PlainProgram p := by
    unfold PlainProgram Plain
    decide
  have hpath : requirePath ⟨true, "./", false⟩ fooBar = "acme/my_app/foo_bar_types".toList := by
    decide +kernel
  obtain ⟨hfiles, -, hread⟩ := types_file_required ⟨true, "./", false⟩
  obtain ⟨rest, hrest⟩ := hread [fooBar] hplain
  rw [List.map_singleton, hpath] at hrest
  have hname := (hfiles fooBar).1
  rw [hpath] at hname
  exact ⟨hname.trans (by decide), rest, hrest⟩

end Sparsam.RequirePaths
