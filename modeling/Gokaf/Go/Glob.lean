import Gokaf.Go.Match
import Mathlib.Data.List.Infix

namespace Go

namespace Pattern

variable {chunk name pattern s : Bytes} {fuel : Nat}

def isClassOrEscape (b : UInt8) : Bool :=
  b = 91 ∨ b = 92

-- Only classes and escapes can be malformed.
def IsPlain (pattern : Bytes) : Prop :=
  pattern.any isClassOrEscape = false

theorem IsPlain.of_subset {pattern' : Bytes} (h : IsPlain pattern) (hsub : pattern' ⊆ pattern) :
    IsPlain pattern' := by
  rw [IsPlain, List.any_eq_false] at h ⊢
  exact fun b hb => h b (hsub hb)

theorem isPlain_of_hasMeta (h : hasMeta pattern = false) : IsPlain pattern := by
  rw [hasMeta, List.any_eq_false] at h
  rw [IsPlain, List.any_eq_false]
  intro b hb hclass
  refine h b hb ?_
  simp only [isClassOrEscape, isMeta, decide_eq_true_eq] at hclass ⊢
  tauto

theorem isSome_matchChunk_go (h : IsPlain chunk) (hfuel : chunk.length < fuel) (failed : Bool) (s : Bytes) :
    (matchChunk.go fuel failed chunk s).isSome := by
  induction chunk generalizing fuel failed s
  case nil =>
    cases fuel
    case zero => contradiction
    case succ => rfl
  case cons c chunk hi =>
    cases fuel
    case zero => contradiction
    case succ fuel =>
      rw [IsPlain, List.any_cons, Bool.or_eq_false_iff] at h
      obtain ⟨hclass, hescape⟩ := not_or.mp (of_decide_eq_false h.left)
      have hrest := @hi fuel h.right (Nat.lt_of_succ_lt_succ hfuel)
      simp only [matchChunk.go, if_neg hclass, if_neg hescape]
      split
      case isTrue =>
        split
        case isTrue  => exact hrest _ _
        case isFalse => exact hrest _ _
      case isFalse => exact hrest _ _

theorem isSome_matchChunk (h : IsPlain chunk) (s : Bytes) : (matchChunk chunk s).isSome :=
  isSome_matchChunk_go h (Nat.lt_succ_self _) false s

theorem scan_append (inRange : Bool) (pattern : Bytes) :
    (scanChunk.scan inRange pattern).fst ++ (scanChunk.scan inRange pattern).snd = pattern := by
  fun_induction scanChunk.scan inRange pattern
  case case1 => rfl
  case case2 => rfl
  case case3 hi => simp [hi]
  case case4 => rfl
  case case5 hi => simp [hi]

theorem scan_fst_ne_nil {c : UInt8} {rest : Bytes} (hc : c ≠ 42) (inRange : Bool) :
    (scanChunk.scan inRange (c :: rest)).fst ≠ [] := by
  unfold scanChunk.scan
  split
  case h_1 heq => cases heq
  case h_2     => simp
  case h_3     => simp
  case h_4 heq =>
    cases heq
    simp [hc]

-- A round of `Match` takes something off the pattern.
theorem length_scanChunk {c : UInt8} (pattern : Bytes) :
    (scanChunk (c :: pattern)).snd.snd.length < (c :: pattern).length ∧
      (scanChunk (c :: pattern)).snd.fst ⊆ c :: pattern ∧ (scanChunk (c :: pattern)).snd.snd ⊆ c :: pattern := by
  have hsplit := scan_append false ((c :: pattern).dropWhile (· = 42))
  have hdrop : (c :: pattern).dropWhile (· = 42) <:+ c :: pattern := List.dropWhile_suffix _
  refine ⟨?_, fun b hb => hdrop.subset ?_, fun b hb => hdrop.subset ?_⟩
  · by_cases hc : c = 42
    case pos =>
      have hlt : ((c :: pattern).dropWhile (· = 42)).length < (c :: pattern).length := by
        rw [List.dropWhile_cons_of_pos (by simpa using hc), List.length_cons]
        exact Nat.lt_succ_of_le (List.dropWhile_suffix _).length_le
      refine Nat.lt_of_le_of_lt ?_ hlt
      conv_rhs => rw [← hsplit, List.length_append]
      exact Nat.le_add_left ..
    case neg =>
      have hne : (scanChunk.scan false (c :: pattern)).fst ≠ [] := scan_fst_ne_nil hc false
      have hpos := List.length_pos_iff.mpr hne
      have hdrop : (c :: pattern).dropWhile (· = 42) = c :: pattern :=
        List.dropWhile_cons_of_neg (by simpa using hc)
      rw [hdrop] at hsplit
      have hlength := congrArg List.length hsplit
      rw [List.length_append] at hlength
      simp only [scanChunk, hdrop]
      omega
  · rw [← hsplit]
    exact List.mem_append_left _ hb
  · rw [← hsplit]
    exact List.mem_append_right _ hb

theorem isWellFormed_of_isPlain (h : IsPlain pattern) (hfuel : pattern.length < fuel) :
    isWellFormed fuel pattern = true := by
  induction fuel generalizing pattern
  case zero => contradiction
  case succ fuel hi =>
    cases pattern
    case nil => rfl
    case cons c pattern =>
      obtain ⟨hlt, hchunk, hrest⟩ := length_scanChunk (c := c) pattern
      simp only [isWellFormed, Bool.and_eq_true]
      refine ⟨isSome_matchChunk (h.of_subset hchunk) [], hi (h.of_subset hrest) ?_⟩
      exact Nat.lt_of_lt_of_le hlt (Nat.le_of_lt_succ hfuel)

theorem isSome_skip (h : IsPlain chunk) (last : Bool) (name : Bytes) : (skip chunk last name).isSome := by
  induction name
  case nil => rfl
  case cons c name hi =>
    rw [skip]
    split
    case isTrue => rfl
    case isFalse =>
      obtain ⟨found, hfound⟩ := Option.isSome_iff_exists.mp (isSome_matchChunk h name)
      rw [hfound]
      cases found
      case none => exact hi
      case some t =>
        simp only
        split
        case isTrue  => exact hi
        case isFalse => rfl

theorem isSome_isMatch (h : IsPlain pattern) (name : Bytes) : (isMatch pattern name).isSome := by
  suffices ∀ fuel, pattern.length < fuel → (isMatch.go fuel pattern name).isSome from this _ (Nat.lt_succ_self _)
  intro fuel hfuel
  induction fuel generalizing pattern name
  case zero => contradiction
  case succ fuel hi =>
    cases pattern
    case nil => rfl
    case cons c pattern =>
      obtain ⟨hlt, hchunk, hrest⟩ := length_scanChunk (c := c) pattern
      have hgo : ∀ name, (isMatch.go fuel (scanChunk (c :: pattern)).snd.snd name).isSome :=
        fun name => hi (h.of_subset hrest) name (by omega)
      obtain ⟨found, hfound⟩ := Option.isSome_iff_exists.mp (isSome_matchChunk (h.of_subset hchunk) name)
      have hskip : ∀ star : Bool, ((if star then skip (scanChunk (c :: pattern)).snd.fst
          ((scanChunk (c :: pattern)).snd.snd = []) name else some none) : Option (Option Bytes)).isSome := by
        intro star
        split
        case isTrue  => exact isSome_skip (h.of_subset hchunk) _ name
        case isFalse => rfl
      simp only [isMatch.go, hfound]
      split
      case isTrue => rfl
      case isFalse =>
        split
        case isTrue => exact hgo _
        case isFalse =>
          obtain ⟨found', hfound'⟩ := Option.isSome_iff_exists.mp (hskip (scanChunk (c :: pattern)).fst)
          rw [hfound']
          cases found'
          case some t => exact hgo t
          case none =>
            simp only
            rw [if_pos (isWellFormed_of_isPlain (h.of_subset hrest) (Nat.lt_succ_self _))]
            rfl

end Pattern

namespace Path

def entry (dir : Path) (name : Bytes) : Path where
  rooted   := dir.rooted
  elements := dir.elements ++ [name]

def toBytes (p : Path) : Bytes :=
  let bs := List.intercalate [separator] p.elements
  if p.rooted then separator :: bs else if p.elements = [] then dot else bs

-- The subdirectories of a directory.
def names (dirs : List Path) (dir : Path) : List Bytes :=
  dirs.filterMap fun p => p.elements.getLast?.filter fun name => p = dir.entry name

-- What `glob` finds in one directory. It finds nothing if there is no such directory.
def globIn (dirs : List Path) (dir : Path) (file : Bytes) : Option (List Path) := do
  let found ← (names dirs dir).filterM (Pattern.isMatch file)
  return found.map dir.entry

-- `Glob` among the directories of a file system, with the elements of the pattern from the last one on. A pattern
-- without a special character stands for the one directory of its name.
def glob (dirs : List Path) (rooted : Bool) : List Bytes → Option (List Path)
  | [] => some [⟨rooted, []⟩]
  | file :: elements => do
    let dir : Path := ⟨rooted, elements.reverse⟩
    let _ ← Pattern.isMatch (dir.entry file).toBytes []
    if Pattern.hasMeta (dir.entry file).toBytes then
      if Pattern.hasMeta dir.toBytes then
        let found ← glob dirs rooted elements
        return (← found.mapM fun d => globIn dirs d file).flatten
      else
        globIn dirs dir file
    else
      return if dir.entry file ∈ dirs then [dir.entry file] else []

-- The directories in which `Glob` looks for the names that a pattern for files stands for.
def globDirs (dirs : List Path) (dir : Path) (file : Bytes) : Option (List Path) := do
  let _ ← Pattern.isMatch (dir.entry file).toBytes []
  if Pattern.hasMeta dir.toBytes then
    glob dirs dir.rooted dir.elements.reverse
  else
    return if dir ∈ dirs then [dir] else []

-- A path that stands for itself in a pattern.
def Literal (p : Path) : Prop :=
  Pattern.hasMeta p.toBytes = false

instance : DecidablePred Literal :=
  fun p => inferInstanceAs (Decidable (Pattern.hasMeta p.toBytes = false))

variable {p dir : Path} {dirs : List Path} {b : UInt8} {path name file : Bytes}

theorem any_intercalate {q : UInt8 → Bool} (hseparator : q separator = false) (elements : List Bytes) :
    (List.intercalate [separator] elements).any q = elements.any (·.any q) := by
  induction elements
  case nil => rfl
  case cons e es hi =>
    cases es
    case nil  => simp
    case cons => simp [List.intercalate_cons_cons, hseparator, hi]

-- The bytes of a path are those of its elements, apart from dots and slashes.
theorem any_toBytes {q : UInt8 → Bool} (hseparator : q separator = false) (hdot : q 46 = false) (p : Path) :
    p.toBytes.any q = p.elements.any (·.any q) := by
  rw [toBytes, ← any_intercalate hseparator]
  split
  case isTrue => simp [hseparator]
  case isFalse =>
    split
    case isTrue hnil => simp [hnil, dot, hdot]
    case isFalse     => rfl

theorem literal_iff : p.Literal ↔ ∀ e ∈ p.elements, Pattern.hasMeta e = false := by
  rw [Literal, Pattern.hasMeta, any_toBytes (by decide) (by decide), List.any_eq_false]
  simp [Pattern.hasMeta]

-- `Clean` puts no other elements into a path than those it has, and `..`.
theorem mem_elements_clean {e : Bytes} (h : e ∈ (clean path).elements) : e = dotDot ∨ e ∈ path.splitOn separator := by
  suffices ∀ (rooted : Bool) (es acc : List Bytes), (∀ e ∈ acc, e = dotDot ∨ e ∈ path.splitOn separator) →
      es ⊆ path.splitOn separator → ∀ e ∈ es.foldl (push rooted) acc, e = dotDot ∨ e ∈ path.splitOn separator from
    this _ _ [] (by simp) (List.Subset.refl _) e h
  intro rooted es
  induction es
  case nil => exact fun acc hacc _ => hacc
  case cons e es hi =>
    intro acc hacc hsub
    obtain ⟨he, hes⟩ := List.cons_subset.mp hsub
    refine hi (push rooted acc e) (fun e' he' => ?_) hes
    unfold push at he'
    split at he'
    case isTrue => exact hacc e' he'
    case isFalse =>
      split at he'
      case isTrue =>
        split at he'
        case h_1 =>
          split at he'
          case isTrue  => cases he'
          case isFalse => exact .inl (List.mem_singleton.mp he')
        case h_2 =>
          split at he'
          case isTrue =>
            cases List.mem_append.mp he'
            case inl he' => exact hacc e' he'
            case inr he' => exact .inl (List.mem_singleton.mp he')
          case isFalse => exact hacc e' (List.dropLast_subset _ he')
      case isFalse =>
        cases List.mem_append.mp he'
        case inl he' => exact hacc e' he'
        case inr he' =>
          rw [List.mem_singleton.mp he']
          exact .inr he

theorem literal_clean (h : Pattern.hasMeta path = false) : (clean path).Literal := by
  have hpath : List.intercalate [separator] (path.splitOn separator) = path := List.intercalate_splitOn separator
  rw [Pattern.hasMeta, ← hpath, any_intercalate (by decide), List.any_eq_false] at h
  refine literal_iff.mpr fun e he => ?_
  cases mem_elements_clean he
  case inl heq =>
    rw [heq]
    rfl
  case inr he => simpa [Pattern.hasMeta] using h e he

theorem literal_join (hdir : Pattern.hasMeta path = false) (hname : Pattern.hasMeta name = false) :
    (join path name).Literal := by
  unfold join
  split
  case isTrue => exact literal_clean hname
  case isFalse =>
    refine literal_clean ?_
    simp only [Pattern.hasMeta] at hdir hname ⊢
    rw [List.any_append, List.any_cons, hdir, hname]
    rfl

-- `Glob` looks into the directory itself, and nowhere else.
theorem Literal.globDirs (h : dir.Literal) (hfile : Pattern.IsPlain file) (hmem : dir ∈ dirs) :
    globDirs dirs dir file = some [dir] := by
  have hentry : Pattern.IsPlain (dir.entry file).toBytes := by
    have hdir := Pattern.isPlain_of_hasMeta h
    rw [Pattern.IsPlain, any_toBytes (by decide) (by decide)] at hdir ⊢
    rw [entry, List.any_append, hdir, List.any_cons, hfile]
    rfl
  obtain ⟨_, hmatch⟩ := Option.isSome_iff_exists.mp (Pattern.isSome_isMatch hentry [])
  rw [Path.globDirs, hmatch, show Pattern.hasMeta dir.toBytes = false from h, if_pos hmem]
  rfl

end Path

-- What Linux takes: the bytes of a name, and those of a path with the NUL behind it.
def nameMax : Nat := 255

def pathMax : Nat := 4096

namespace Path

structure Creatable (p : Path) : Prop where
  names : ∀ e ∈ p.elements, e.length ≤ nameMax ∧ 0 ∉ e
  path  : p.toBytes.length < pathMax

instance : DecidablePred Creatable := fun p =>
  decidable_of_iff ((∀ e ∈ p.elements, e.length ≤ nameMax ∧ 0 ∉ e) ∧ p.toBytes.length < pathMax)
    ⟨fun h => ⟨h.left, h.right⟩, fun h => ⟨h.names, h.path⟩⟩

-- A directory with the ones above it, from the top on.
def ancestors (p : Path) : List Path :=
  p.elements.inits.map (Path.mk p.rooted)

theorem mem_ancestors (p : Path) : p ∈ p.ancestors :=
  List.mem_map.mpr ⟨p.elements, List.mem_inits _ _ |>.mpr List.prefix_rfl, rfl⟩

end Path
end Go
