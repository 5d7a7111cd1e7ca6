import Gokaf.Go.Bytes

namespace Go

-- What `filepath.Clean` returns, by the elements between the slashes.
structure Path where
  rooted   : Bool
  elements : List Bytes
  deriving DecidableEq, Repr

namespace Path

def separator : UInt8 := 47

def dot : Bytes := [46]

def dotDot : Bytes := [46, 46]

-- What `Clean` makes of the next element.
def push (rooted : Bool) (elements : List Bytes) (element : Bytes) : List Bytes :=
  if element = [] ∨ element = dot then
    elements
  else if element = dotDot then
    match elements.getLast? with
    | none      => if rooted then [] else [dotDot]
    | some last => if last = dotDot then elements ++ [dotDot] else elements.dropLast
  else
    elements ++ [element]

def clean (path : Bytes) : Path where
  rooted   := path.head? = some separator
  elements := (path.splitOn separator).foldl (push (path.head? = some separator)) []

-- `filepath.Join` of a directory and a name that is not empty.
def join (dir name : Bytes) : Path :=
  if dir = [] then clean name else clean (dir ++ separator :: name)

-- A name that stays as it is at the end of a path.
structure Plain (name : Bytes) : Prop where
  separator : Path.separator ∉ name
  ne_nil    : name ≠ []
  ne_dot    : name ≠ dot
  ne_dotDot : name ≠ dotDot

variable {dir name name' : Bytes}

theorem Plain.push (h : Plain name) (rooted : Bool) (elements : List Bytes) :
    Path.push rooted elements name = elements ++ [name] := by
  simp [Path.push, h.ne_nil, h.ne_dot, h.ne_dotDot]

theorem Plain.splitOn (h : Plain name) : name.splitOn Path.separator = [name] := by
  refine List.splitOnP_eq_singleton fun b hb => beq_false_of_ne ?_
  rintro rfl
  exact h.separator hb

theorem Plain.join (h : Plain name) (dir : Bytes) :
    Path.join dir name = ⟨(clean dir).rooted, (clean dir).elements ++ [name]⟩ := by
  unfold Path.join
  split
  case isTrue hnil =>
    have hhead : name.head? ≠ some Path.separator := fun heq => h.separator (List.mem_of_mem_head? heq)
    rw [hnil, clean, h.splitOn]
    simp [hhead, h.push, clean]
    rfl
  case isFalse hne =>
    have hhead : (dir ++ Path.separator :: name).head? = dir.head? := by
      rw [List.head?_append, List.head?_eq_some_head hne]
      rfl
    have hsplit : (dir ++ Path.separator :: name).splitOn Path.separator =
        dir.splitOn Path.separator ++ name.splitOn Path.separator := List.splitOnP_append_cons _ _ (by simp)
    rw [clean, hhead, hsplit, h.splitOn, List.foldl_append, List.foldl_cons, List.foldl_nil, h.push]
    rfl

theorem Plain.join_inj (h : Plain name) (h' : Plain name') (heq : Path.join dir name = Path.join dir name') :
    name = name' := by
  rw [h.join, h'.join] at heq
  simpa using heq

end Path
end Go
