import Gokaf.Go.Bytes
import Mathlib.Data.List.Sort

namespace Go

section

variable {α : Type*} {r : α → α → Prop} {l l' : List α}

theorem nodup_of_ascending [Std.Asymm r] (h : l.Pairwise r) : l.Nodup := by
  refine h.imp fun {a b} hab => ?_
  rintro rfl
  exact Std.Asymm.asymm a a hab hab

-- An ascending list is determined by its members.
theorem eq_of_ascending [Std.Asymm r] (h : l.Pairwise r) (h' : l'.Pairwise r) (hmem : ∀ a, a ∈ l ↔ a ∈ l') :
    l = l' := by
  have hperm : l.Perm l' := (List.perm_ext_iff_of_nodup (nodup_of_ascending h) (nodup_of_ascending h')).mpr hmem
  exact hperm.eq_of_pairwise (fun a b _ _ hab hba => absurd hba (Std.Asymm.asymm a b hab)) h h'

end

-- `sort.Strings`
def sortStrings (names : List Bytes) : List Bytes :=
  names.insertionSort (· ≤ ·)

variable {names names' : List Bytes} {name : Bytes}

theorem perm_sortStrings (names : List Bytes) : (sortStrings names).Perm names :=
  List.perm_insertionSort ..

@[simp]
theorem mem_sortStrings : name ∈ sortStrings names ↔ name ∈ names :=
  (perm_sortStrings names).mem_iff

@[simp]
theorem length_sortStrings (names : List Bytes) : (sortStrings names).length = names.length :=
  (perm_sortStrings names).length_eq

theorem nodup_sortStrings (h : names.Nodup) : (sortStrings names).Nodup :=
  (perm_sortStrings names).nodup_iff.mpr h

theorem ascending_sortStrings (h : names.Nodup) : (sortStrings names).Pairwise (· < ·) := by
  have hsorted : (sortStrings names).Pairwise (· ≤ ·) := List.pairwise_insertionSort ..
  exact (hsorted.and (nodup_sortStrings h)).imp fun hab => Std.lt_of_le_of_ne hab.left hab.right

theorem sortStrings_eq_of_perm (h : names.Perm names') : sortStrings names = sortStrings names' := by
  have hperm : (sortStrings names).Perm (sortStrings names') :=
    (perm_sortStrings names).trans (h.trans (perm_sortStrings names').symm)
  exact hperm.eq_of_pairwise (fun _ _ _ _ => Std.le_antisymm) (List.pairwise_insertionSort ..)
    (List.pairwise_insertionSort ..)

end Go
