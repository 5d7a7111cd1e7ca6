import Mathlib.Data.List.AList

namespace Go

-- A Go map. Nothing depends on the order of its entries.
abbrev Map (κ υ : Type*) := AList fun _ : κ => υ

namespace Map

variable {κ υ σ : Type*} {k : κ} {v v' : υ} {f : σ → υ → σ × υ}

def accum (f : σ → υ → σ × υ) : σ → List (Σ _ : κ, υ) → σ × List (Σ _ : κ, υ)
  | s, []           => (s, [])
  | s, ⟨k, v⟩ :: es =>
    let (s, v)  := f s v
    let (s, es) := accum f s es
    (s, ⟨k, v⟩ :: es)

theorem keys_accum (f : σ → υ → σ × υ) (s : σ) (es : List (Σ _ : κ, υ)) :
    (accum f s es).snd.keys = es.keys := by
  induction es generalizing s
  case nil          => rfl
  case cons e es hi => simp [accum, hi]

-- `for _, v := range m { .. }` with a body that works on a state and on the value `v` points to.
def forEach (m : Map κ υ) (f : σ → υ → σ × υ) (s : σ) : σ × Map κ υ :=
  let r := accum f s m.entries
  (r.fst, ⟨r.snd, by rw [List.NodupKeys, keys_accum]; exact m.nodupKeys⟩)

theorem lookup_of_erase [DecidableEq κ] {m : Map κ υ} {a : κ} (h : (m.erase a).lookup k = some v) :
    k ≠ a ∧ m.lookup k = some v := by
  by_cases hk : k = a
  case pos =>
    subst hk
    rw [AList.lookup_erase] at h
    contradiction
  case neg =>
    rw [AList.lookup_erase_ne hk] at h
    exact ⟨hk, h⟩

theorem mem_of_lookup [DecidableEq κ] {m : Map κ υ} (h : m.lookup k = some v) : k ∈ m :=
  AList.lookup_isSome.mp (by rw [h]; rfl)

theorem eq_empty_iff [DecidableEq κ] {m : Map κ υ} : m = ∅ ↔ ∀ k, k ∉ m := by
  constructor
  · rintro rfl k
    exact AList.notMem_empty k
  · intro h
    refine AList.ext (List.eq_nil_iff_forall_not_mem.mpr fun e he => h e.fst ?_)
    exact AList.mem_keys.mpr (List.mem_keys_of_mem he)

section Rel

variable [DecidableEq κ] {R R' : κ → υ → υ → Prop} {m m' m'' : Map κ υ}

-- The maps have the same keys, with related values.
def Rel (R : κ → υ → υ → Prop) (m m' : Map κ υ) : Prop :=
  ∀ k, Option.Rel (R k) (m.lookup k) (m'.lookup k)

namespace Rel

theorem lookup_left (h : Rel R m m') (hk : m.lookup k = some v) : ∃ v', m'.lookup k = some v' ∧ R k v v' := by
  have hrel := h k
  rw [hk] at hrel
  generalize m'.lookup k = x at hrel
  cases hrel
  case some v' hv => exact ⟨v', rfl, hv⟩

theorem lookup_right (h : Rel R m m') (hk : m'.lookup k = some v') : ∃ v, m.lookup k = some v ∧ R k v v' := by
  have hrel := h k
  rw [hk] at hrel
  generalize m.lookup k = x at hrel
  cases hrel
  case some v hv => exact ⟨v, rfl, hv⟩

theorem mem_iff (h : Rel R m m') : k ∈ m' ↔ k ∈ m := by
  rw [← AList.lookup_isSome, ← AList.lookup_isSome]
  have hrel := h k
  generalize m.lookup k = x at hrel
  generalize m'.lookup k = y at hrel
  cases hrel <;> rfl

-- What the relation keeps of a value.
theorem map_lookup {α : Type*} {f : υ → α} (h : Rel R m m') (hf : ∀ k v v', R k v v' → f v' = f v) (k : κ) :
    (m'.lookup k).map f = (m.lookup k).map f := by
  have hrel := h k
  generalize m.lookup k = x at hrel
  generalize m'.lookup k = y at hrel
  cases hrel
  case none    => rfl
  case some hv => exact congrArg some (hf _ _ _ hv)

theorem eq_empty_iff (h : Rel R m m') : m' = ∅ ↔ m = ∅ := by
  rw [Map.eq_empty_iff, Map.eq_empty_iff]
  exact forall_congr' fun k => not_congr h.mem_iff

theorem refl (hR : ∀ k v, R k v v) (m : Map κ υ) : Rel R m m := by
  intro k
  cases m.lookup k
  case none   => exact .none
  case some v => exact .some (hR k v)

theorem mono (h : Rel R m m') (hR : ∀ k v v', R k v v' → R' k v v') : Rel R' m m' := by
  intro k
  have hrel := h k
  generalize m.lookup k = x at hrel
  generalize m'.lookup k = y at hrel
  cases hrel
  case none    => exact .none
  case some hv => exact .some (hR _ _ _ hv)

theorem trans {S : κ → υ → υ → Prop} (h : Rel R m m') (h' : Rel R' m' m'')
    (hS : ∀ k v v' v'', R k v v' → R' k v' v'' → S k v v'') : Rel S m m'' := by
  intro k
  have hrel  := h k
  have hrel' := h' k
  generalize m.lookup k = x at hrel
  generalize m'.lookup k = y at hrel hrel'
  generalize m''.lookup k = z at hrel'
  cases hrel
  case none =>
    cases hrel'
    exact .none
  case some hv =>
    cases hrel'
    case some hv' => exact .some (hS _ _ _ _ hv hv')

-- The value of one key is replaced.
theorem insert (hR : ∀ k v, R k v v) (hk : m.lookup k = some v) (hv : R k v v') : Rel R m (m.insert k v') := by
  intro k'
  by_cases h : k' = k
  case pos =>
    subst h
    rw [hk, AList.lookup_insert]
    exact .some hv
  case neg =>
    rw [AList.lookup_insert_ne h]
    exact refl hR m k'

end Rel

theorem dlookup_accum (hf : ∀ s k v, R k v (f s v).snd) (k : κ) (s : σ) (es : List (Σ _ : κ, υ)) :
    Option.Rel (R k) (es.dlookup k) ((accum f s es).snd.dlookup k) := by
  induction es generalizing s
  case nil => exact .none
  case cons e es hi =>
    have ⟨k', v⟩ := e
    by_cases h : k = k'
    case pos =>
      subst h
      simp only [accum, List.dlookup_cons_eq]
      exact .some (hf s k v)
    case neg =>
      simp only [accum]
      rw [List.dlookup_cons_ne _ _ h, List.dlookup_cons_ne _ _ h]
      exact hi _

-- What the body does with a value is what happens to each value.
theorem rel_forEach (m : Map κ υ) (s : σ) (hf : ∀ s k v, R k v (f s v).snd) : Rel R m (m.forEach f s).snd :=
  fun k => dlookup_accum hf k s m.entries

end Rel

-- What the body keeps of the state is kept by the loop.
theorem forEach_induction {P : σ → Prop} (m : Map κ υ) {s : σ} (hs : P s)
    (hf : ∀ s v, P s → P (f s v).fst) : P (m.forEach f s).fst := by
  suffices ∀ es : List (Σ _ : κ, υ), P (accum f s es).fst from this m.entries
  intro es
  induction es generalizing s
  case nil          => exact hs
  case cons e es hi => exact hi (hf s e.snd hs)

end Map
end Go
