import Gokaf.Go.Chan
import Mathlib.Data.List.Perm.Basic
import Mathlib.Logic.Function.Basic

namespace Go

variable {α β κ : Type*} {ids : κ → β} {await await' : β → Option Nat} {next : Nat}
  {chans chans' : Nat → Chan α κ} {ready ready' : Nat → List κ} {owner : Nat → β} {x : β} {channel : Nat} {k : κ}

-- One more value is sent.
theorem Chan.serves_update_send
    (h : ∀ channel, (chans channel).Serves (ready channel) (chans' channel) (ready channel)) (sent : Nat) (a : α)
    (channel : Nat) :
    (chans channel).Serves (ready channel) (Function.update chans' sent ((chans' sent).send a).fst channel)
      (ready channel) := by
  rw [Function.update_apply]
  split
  case isTrue heq => exact heq ▸ (h channel).trans (heq ▸ serves_send ..)
  case isFalse    => exact h channel

-- One of the goroutines receives.
theorem Chan.serves_update_receive
    (hself : (ready channel).Perm (k :: ready' channel))
    (hother : ∀ ch, ch ≠ channel → (ready ch).Perm (ready' ch)) (ch : Nat) :
    (chans ch).Serves (ready ch) (Function.update chans channel ((chans channel).receive k).fst ch) (ready' ch) := by
  rw [Function.update_apply]
  split
  case isTrue heq =>
    subst heq
    exact serves_receive _ hself
  case isFalse hne => exact .perm _ (hother ch hne)

theorem perm_cons_eraseIdx {l : List κ} {i : Nat} (h : l[i]? = some k) : l.Perm (k :: l.eraseIdx i) := by
  have ⟨hlt, heq⟩ := List.getElem?_eq_some_iff.mp h
  exact heq ▸ (List.getElem_cons_eraseIdx_perm hlt).symm

theorem perm_set {l : List κ} {i : Nat} (h : l[i]? = some k) (k' : κ) : (l.set i k').Perm (k' :: l.eraseIdx i) := by
  have hset : (l.set i k')[i]? = some k' := List.getElem?_set_self (List.getElem?_eq_some_iff.mp h).fst
  simpa [List.eraseIdx_set_eq] using perm_cons_eraseIdx hset

-- Every goroutine waits for its owner's channel. An owner has one channel at a time, and may take up a
-- new one. The channels that were left hold a value for everyone who still waits.
structure Waits (ids : κ → β) (await : β → Option Nat) (next : Nat) (chans : Nat → Chan α κ)
    (ready : Nat → List κ) (owner : Nat → β) : Prop where
  used    : ∀ x channel, await x = some channel → channel < next ∧ owner channel = x
  fresh   : ∀ channel, next ≤ channel → (chans channel).waiting (ready channel) = []
  owned   : ∀ channel, ∀ k ∈ (chans channel).waiting (ready channel), ids k = owner channel
  current : ∀ channel, await (owner channel) = some channel ∨ (chans channel).Settled (ready channel)

namespace Waits

-- Who waits in vain so far waits for a channel in use.
theorem await_eq (h : Waits ids await next chans ready owner) (hbuffer : (chans channel).buffer = none)
    (hk : k ∈ (chans channel).waiting (ready channel)) : await (ids k) = some channel := by
  rw [h.owned channel k hk]
  refine (h.current channel).resolve_right fun hsettled => ?_
  rw [Chan.Settled, hbuffer] at hsettled
  exact List.ne_nil_of_mem hk (List.eq_nil_of_length_eq_zero (Nat.le_zero.mp hsettled))

theorem serves (h : Waits ids await next chans ready owner)
    (hserves : ∀ channel, (chans channel).Serves (ready channel) (chans' channel) (ready' channel)) :
    Waits ids await next chans' ready' owner where
  used                := h.used
  fresh channel hle   := List.subset_nil.mp (h.fresh channel hle ▸ (hserves channel).subset)
  owned channel k hk  := h.owned channel k ((hserves channel).subset hk)
  current channel     := (h.current channel).imp_right (hserves channel).settled

-- A goroutine of the owner comes and waits for its channel.
theorem call (h : Waits ids await next chans ready owner) (hx : await (ids k) = some channel)
    (hready : ready' = Function.update ready channel (ready channel ++ [k])) :
    Waits ids await next chans ready' owner := by
  subst hready
  have ⟨hlt, howner⟩ := h.used _ channel hx
  have hother : ∀ ch, ch ≠ channel →
      (chans ch).waiting (Function.update ready channel (ready channel ++ [k]) ch) = (chans ch).waiting (ready ch) := by
    intro ch hne
    rw [Function.update_of_ne hne]
  refine ⟨h.used, fun ch hle => ?_, fun ch k' hk' => ?_, fun ch => ?_⟩
  · rw [hother ch (by omega)]
    exact h.fresh ch hle
  · by_cases hch : ch = channel
    case pos =>
      subst hch
      rw [Function.update_self, Chan.waiting, ← List.append_assoc, List.mem_append, List.mem_singleton] at hk'
      cases hk'
      case inl hold => exact h.owned ch k' hold
      case inr hnew => rw [hnew, howner]
    case neg =>
      rw [hother ch hch] at hk'
      exact h.owned ch k' hk'
  · by_cases hch : ch = channel
    case pos => exact .inl (by rw [hch, howner, hx])
    case neg =>
      rw [Chan.Settled, hother ch hch]
      exact h.current ch

variable [DecidableEq β]

-- The owner leaves its channel, if it is settled, and does not take up another one.
theorem leave (h : Waits ids await next chans ready owner)
    (hsettled : ∀ channel, await x = some channel → (chans channel).Settled (ready channel))
    (hawait : await' = Function.update await x none) : Waits ids await' next chans ready owner := by
  subst hawait
  refine ⟨fun y channel hy => ?_, h.fresh, h.owned, fun channel => ?_⟩
  · by_cases hxy : y = x
    case pos =>
      rw [hxy, Function.update_self] at hy
      contradiction
    case neg =>
      rw [Function.update_of_ne hxy] at hy
      exact h.used y channel hy
  · cases h.current channel
    case inl hcurrent =>
      by_cases hxy : owner channel = x
      case pos => exact .inr (hsettled channel (hxy ▸ hcurrent))
      case neg => exact .inl (by rwa [Function.update_of_ne hxy])
    case inr hs => exact .inr hs

-- The owner takes up the next channel, on which at most its own goroutines wait.
theorem take (h : Waits ids await next chans ready owner)
    (hsettled : ∀ channel, await x = some channel → (chans channel).Settled (ready channel))
    (hawait : await' = Function.update await x (some next)) (hready : ∀ channel, channel ≠ next →
      ready' channel = ready channel) (hnew : ∀ k ∈ ready' next, ids k = x) :
    Waits ids await' (next + 1) chans ready' (Function.update owner next x) := by
  have hleft := h.leave hsettled rfl
  subst hawait
  refine ⟨fun y channel hy => ?_, fun channel hle => ?_, fun channel k hk => ?_, fun channel => ?_⟩
  · by_cases hxy : y = x
    case pos =>
      subst hxy
      rw [Function.update_self] at hy
      cases hy
      exact ⟨Nat.lt_succ_self _, Function.update_self ..⟩
    case neg =>
      rw [Function.update_of_ne hxy] at hy
      have ⟨hlt, howner⟩ := h.used y channel hy
      exact ⟨by omega, by rwa [Function.update_of_ne (by omega)]⟩
  · rw [hready channel (by omega)]
    exact h.fresh channel (by omega)
  · by_cases hch : channel = next
    case pos =>
      subst hch
      have hnil := List.append_eq_nil_iff.mp (h.fresh channel (Nat.le_refl _))
      rw [Function.update_self]
      exact hnew k (by simpa [Chan.waiting, hnil.left] using hk)
    case neg =>
      rw [hready channel hch] at hk
      rw [Function.update_of_ne hch]
      exact h.owned channel k hk
  · by_cases hch : channel = next
    case pos => exact .inl (by rw [hch, Function.update_self, Function.update_self])
    case neg =>
      rw [hready channel hch, Function.update_of_ne hch]
      cases hleft.current channel
      case inr hs => exact .inr hs
      case inl hcurrent =>
        by_cases hxy : owner channel = x
        case pos =>
          rw [hxy, Function.update_self] at hcurrent
          contradiction
        case neg =>
          rw [Function.update_of_ne hxy] at hcurrent ⊢
          exact .inl hcurrent

end Waits

section Held

variable {H : Nat → α → Prop} {A : Nat → κ → Prop} {a : α}

-- What is in a channel and who is parked on it meet the channel's conditions.
structure Held (chans : Nat → Chan α κ) (H : Nat → α → Prop) (A : Nat → κ → Prop) : Prop where
  buffer    : ∀ channel, ∀ a ∈ (chans channel).buffer, H channel a
  receivers : ∀ channel, ∀ k ∈ (chans channel).receivers, A channel k

namespace Held

theorem update {ch : Chan α κ} (h : Held chans H A) (hbuffer : ∀ a ∈ ch.buffer, H channel a)
    (hreceivers : ∀ k ∈ ch.receivers, A channel k) : Held (Function.update chans channel ch) H A := by
  refine ⟨fun channel' a ha => ?_, fun channel' k hk => ?_⟩
  · rw [Function.update_apply] at ha
    split at ha
    case isTrue heq => exact heq ▸ hbuffer a ha
    case isFalse    => exact h.buffer channel' a ha
  · rw [Function.update_apply] at hk
    split at hk
    case isTrue heq => exact heq ▸ hreceivers k hk
    case isFalse    => exact h.receivers channel' k hk

theorem send (h : Held chans H A) (ha : H channel a) :
    Held (Function.update chans channel ((chans channel).send a).fst) H A ∧
      ∀ k ∈ ((chans channel).send a).snd, A channel k := by
  refine ⟨h.update (fun b hb => ?_) fun k hk => ?_, fun k hk => ?_⟩
  · cases (chans channel).send_cases a
    case inl hsend =>
      obtain ⟨_, _, _, _, hnone⟩ := hsend
      rw [hnone] at hb
      contradiction
    case inr hsend =>
      rw [hsend.right.right.right, Option.mem_def, Option.or_eq_some_iff] at hb
      cases hb
      case inl hold => exact h.buffer channel b hold
      case inr hnew =>
        cases hnew.right
        exact ha
  · exact h.receivers channel k (Chan.receivers_send_subset _ _ hk)
  · exact h.receivers channel k (Chan.mem_receivers_of_send hk)

theorem receive (h : Held chans H A) (hk : A channel k) :
    Held (Function.update chans channel ((chans channel).receive k).fst) H A ∧
      ∀ a ∈ ((chans channel).receive k).snd, H channel a := by
  cases (chans channel).receive_cases k
  case inl hreceive =>
    obtain ⟨a, hbuffer, hsnd, hbuffer', hreceivers, hreceivers'⟩ := hreceive
    refine ⟨h.update (by simp [hbuffer']) (by simp [hreceivers']), fun b hb => ?_⟩
    rw [hsnd] at hb
    cases hb
    exact h.buffer channel a hbuffer
  case inr hreceive =>
    obtain ⟨hbuffer, hsnd, hbuffer', hreceivers⟩ := hreceive
    refine ⟨h.update (by simp [hbuffer']) fun k' hk' => ?_, by simp [hsnd]⟩
    rw [hreceivers, List.mem_append, List.mem_singleton] at hk'
    cases hk'
    case inl hold => exact h.receivers channel k' hold
    case inr hnew => exact hnew ▸ hk

theorem mono {H' : Nat → α → Prop} {A' : Nat → κ → Prop} (h : Held chans H A)
    (hH : ∀ channel, ∀ a ∈ (chans channel).buffer, H channel a → H' channel a)
    (hA : ∀ channel, ∀ k ∈ (chans channel).receivers, A channel k → A' channel k) : Held chans H' A' where
  buffer channel a ha    := hH channel a ha (h.buffer channel a ha)
  receivers channel k hk := hA channel k hk (h.receivers channel k hk)

end Held
end Held

section Once

variable [DecidableEq κ] {label label' : Nat → κ} {answers : List (κ × α)} {a : α}

def answersTo (k : κ) (answers : List (κ × α)) : List α :=
  answers.filterMap fun x => if x.fst = k then some x.snd else none

@[simp]
theorem answersTo_append (k : κ) (answers answers' : List (κ × α)) :
    answersTo k (answers ++ answers') = answersTo k answers ++ answersTo k answers' :=
  List.filterMap_append ..

theorem answersTo_singleton (k : κ) (x : κ × α) : answersTo k [x] = if x.fst = k then [x.snd] else [] := by
  by_cases h : x.fst = k
  all_goals simp [answersTo, h]

theorem mem_answersTo : a ∈ answersTo k answers ↔ (k, a) ∈ answers := by
  simp only [answersTo, List.mem_filterMap, Option.ite_none_right_eq_some, Option.some.injEq, Prod.exists]
  constructor
  · rintro ⟨k', a', hmem, rfl, rfl⟩
    exact hmem
  · exact fun hmem => ⟨k, a, hmem, rfl, rfl⟩

-- Every goroutine has a channel of its own, and has left it with one answer or still waits.
structure Once (next : Nat) (chans : Nat → Chan α κ) (ready : Nat → List κ) (answers : List (κ × α))
    (label : Nat → κ) : Prop where
  injective : Function.Injective label
  waiting   : ∀ channel, ∀ k ∈ (chans channel).waiting (ready channel), k = label channel
  answered  : ∀ x ∈ answers, ∃ channel, x.fst = label channel
  once      : ∀ channel, ((chans channel).waiting (ready channel)).length + (answersTo (label channel) answers).length =
    if channel < next then 1 else 0

namespace Once

theorem length_le (h : Once next chans ready answers label) (channel : Nat) :
    ((chans channel).waiting (ready channel)).length + (answersTo (label channel) answers).length ≤ 1 := by
  rw [h.once]
  split <;> omega

-- An answer is the only one.
theorem answersTo_eq (h : Once next chans ready answers label) (ha : (label channel, a) ∈ answers) :
    answersTo (label channel) answers = [a] := by
  have hmem := mem_answersTo.mpr ha
  have hle := h.length_le channel
  have ⟨b, hb⟩ := List.length_eq_one_iff.mp (Nat.le_antisymm (by omega) (List.length_pos_of_mem hmem))
  rw [hb] at hmem ⊢
  rw [List.mem_singleton.mp hmem]

-- Who waits was not answered, and waits alone.
theorem answersTo_eq_nil (h : Once next chans ready answers label)
    (hk : k ∈ (chans channel).waiting (ready channel)) :
    k = label channel ∧ answersTo k answers = [] ∧ (chans channel).waiting (ready channel) = [k] := by
  have hlabel := h.waiting channel k hk
  have hle := h.length_le channel
  have hpos := List.length_pos_of_mem hk
  have ⟨b, hb⟩ := List.length_eq_one_iff.mp (Nat.le_antisymm (by omega) hpos)
  refine ⟨hlabel, ?_, ?_⟩
  · rw [hlabel]
    exact List.eq_nil_of_length_eq_zero (by omega)
  · rw [hb] at hk ⊢
    rw [List.mem_singleton.mp hk]

-- One channel is served, and an answer is given to whom it serves.
theorem serve {ch' : Chan α κ} {given : Option (κ × α)} (h : Once next chans ready answers label)
    (hgiven : ∀ x ∈ given, x.fst = label channel)
    (hsubset : ch'.waiting (ready' channel) ⊆ (chans channel).waiting (ready channel))
    (hlength : (ch'.waiting (ready' channel)).length + given.toList.length =
      ((chans channel).waiting (ready channel)).length)
    (hother : ∀ ch, ch ≠ channel → (ready ch).Perm (ready' ch)) :
    Once next (Function.update chans channel ch') ready' (answers ++ given.toList) label where
  injective := h.injective
  waiting ch k hk := by
    by_cases hch : ch = channel
    case pos =>
      subst hch
      rw [Function.update_self] at hk
      exact h.waiting ch k (hsubset hk)
    case neg =>
      rw [Function.update_of_ne hch] at hk
      exact h.waiting ch k ((Chan.Serves.perm _ (hother ch hch)).subset hk)
  answered x hx := by
    cases List.mem_append.mp hx
    case inl hold => exact h.answered x hold
    case inr hnew => exact ⟨channel, hgiven x (Option.mem_toList.mp hnew)⟩
  once ch := by
    rw [← h.once ch, answersTo_append, List.length_append]
    by_cases hch : ch = channel
    case pos =>
      subst hch
      have hnew : (answersTo (label ch) given.toList).length = given.toList.length := by
        cases given
        case none   => rfl
        case some x => simp [answersTo_singleton, hgiven x rfl]
      rw [Function.update_self]
      omega
    case neg =>
      have hnew : answersTo (label ch) given.toList = [] := by
        cases given
        case none   => rfl
        case some x =>
          have hne : label channel ≠ label ch := fun heq => hch (h.injective heq).symm
          simp [answersTo_singleton, hgiven x rfl, hne]
      rw [Function.update_of_ne hch, hnew, Chan.waiting, Chan.waiting, List.length_append, List.length_append,
        (hother ch hch).length_eq, List.length_nil, Nat.add_zero]

theorem send (h : Once next chans ready answers label) (channel : Nat) (a : α) :
    Once next (Function.update chans channel ((chans channel).send a).fst) ready
      (answers ++ ((chans channel).send a).snd.toList.map (·, a)) label := by
  have hsubset := ((chans channel).serves_send a (ready channel)).subset
  rw [← Option.toList_map]
  cases (chans channel).send_cases a
  case inl hsend =>
    obtain ⟨k, hreceivers, hsnd, _, _⟩ := hsend
    have hk := h.waiting channel k (by simp [Chan.waiting, hreceivers])
    refine h.serve (by simp [hsnd, hk]) hsubset ?_ fun _ _ => .refl _
    simp only [Chan.waiting, hreceivers, hsnd, List.length_append, List.length_cons, Option.map_some,
      Option.toList_some, List.length_nil]
    omega
  case inr hsend =>
    obtain ⟨hreceivers, hreceivers', hsnd, _⟩ := hsend
    exact h.serve (by simp [hsnd]) hsubset (by simp [Chan.waiting, hreceivers, hreceivers', hsnd]) fun _ _ => .refl _

theorem receive (h : Once next chans ready answers label) (hself : (ready channel).Perm (k :: ready' channel))
    (hother : ∀ ch, ch ≠ channel → (ready ch).Perm (ready' ch)) :
    Once next (Function.update chans channel ((chans channel).receive k).fst) ready'
      (answers ++ ((chans channel).receive k).snd.toList.map (k, ·)) label := by
  have hsubset := ((chans channel).serves_receive hself).subset
  have hk : k = label channel := h.waiting channel k (by simp [Chan.waiting, hself.mem_iff])
  have hlength := hself.length_eq
  rw [← Option.toList_map]
  cases (chans channel).receive_cases k
  case inl hreceive =>
    obtain ⟨a, _, hsnd, _, hreceivers, hreceivers'⟩ := hreceive
    refine h.serve (by simp [hk]) hsubset ?_ hother
    simpa [Chan.waiting, hreceivers, hreceivers', hsnd] using hlength.symm
  case inr hreceive =>
    obtain ⟨_, hsnd, _, hreceivers⟩ := hreceive
    refine h.serve (by simp [hsnd]) hsubset ?_ hother
    simp only [Chan.waiting, hreceivers, hsnd, List.length_append, List.length_cons, List.length_nil,
      Option.map_none, Option.toList_none, hlength]
    omega

-- A new goroutine comes with the next channel.
theorem call (h : Once next chans ready answers label)
    (hready : ready' = Function.update ready next (ready next ++ [k]))
    (hlabel : label' = Function.update label next k) (hk : ∀ channel, channel ≠ next → label channel ≠ k) :
    Once (next + 1) chans ready' answers label' := by
  subst hready hlabel
  have hnext := h.once next
  rw [if_neg (Nat.lt_irrefl _), Nat.add_eq_zero_iff, List.length_eq_zero_iff, List.length_eq_zero_iff] at hnext
  obtain ⟨hnil, hold⟩ := hnext
  obtain ⟨hreceivers, hready⟩ := List.append_eq_nil_iff.mp hnil
  have hnone : ∀ x ∈ answers, x.fst ≠ label next := by
    intro x hx heq
    have hmem := mem_answersTo.mpr hx
    rw [heq, hold] at hmem
    contradiction
  have hfresh : answersTo k answers = [] := by
    refine List.eq_nil_iff_forall_not_mem.mpr fun a ha => ?_
    obtain ⟨channel, heq⟩ := h.answered _ (mem_answersTo.mp ha)
    by_cases hch : channel = next
    case pos => exact hnone _ (mem_answersTo.mp ha) (hch ▸ heq)
    case neg => exact hk channel hch heq.symm
  refine ⟨?_, fun channel k' hk' => ?_, fun x hx => ?_, fun channel => ?_⟩
  · intro ch ch' heq
    by_cases hch : ch = next <;> by_cases hch' : ch' = next
    · rw [hch, hch']
    · rw [hch, Function.update_self, Function.update_of_ne hch'] at heq
      exact absurd heq.symm (hk ch' hch')
    · rw [hch', Function.update_self, Function.update_of_ne hch] at heq
      exact absurd heq (hk ch hch)
    · rw [Function.update_of_ne hch, Function.update_of_ne hch'] at heq
      exact h.injective heq
  · by_cases hch : channel = next
    case pos =>
      subst hch
      rw [Function.update_self, hready, Chan.waiting, hreceivers] at hk'
      rw [Function.update_self]
      simpa using hk'
    case neg =>
      rw [Function.update_of_ne hch] at hk' ⊢
      exact h.waiting channel k' hk'
  · obtain ⟨channel, heq⟩ := h.answered x hx
    have hch : channel ≠ next := by
      rintro rfl
      exact hnone x hx heq
    exact ⟨channel, by rwa [Function.update_of_ne hch]⟩
  · by_cases hch : channel = next
    case pos =>
      subst hch
      rw [Function.update_self, Function.update_self, hready, Chan.waiting, hreceivers, hfresh]
      simp
    case neg =>
      rw [Function.update_of_ne hch, Function.update_of_ne hch, h.once channel]
      congr 1
      simp only [eq_iff_iff]
      omega

end Once
end Once
end Go
