import Gokaf.Network.Theorems.Fetch
import Gokaf.Network.Theorems.Produce
import Gokaf.Replication.Following
import Gokaf.Replication.Theorems.Fetcher

open Go Protocol

namespace Replication.Following

variable {p : Partition} {s s' : State} {L F : List Bytes} {i n : Nat} {o : List Unit}

-- One fetcher gets a new phase.
theorem map_modify {α β : Type*} {f : α → α} {g : α → β} {b : β} (h : ∀ a, g (f a) = b) {as : List α} :
    (as.modify i f).map g = (as.map g).set i b := by
  refine List.ext_getElem? fun j => ?_
  simp only [List.getElem?_map, List.getElem?_modify, List.getElem?_set, List.length_map]
  by_cases hij : i = j
  case neg => simp [hij]
  case pos =>
    subst hij
    by_cases hi : i < as.length
    case pos => simp [hi, h]
    case neg => simp [hi]

namespace State

def phases (s : State) : List Phase :=
  s.fetchers.map (·.phase)

theorem phase?_eq (s : State) (i : Nat) : s.phase? i = s.phases[i]? := by
  rw [phase?, phases, List.getElem?_map]

@[simp]
theorem phases_setPhase (s : State) (i : Nat) (phase : Phase) :
    (s.setPhase i phase).phases = s.phases.set i phase := by
  unfold setPhase phases
  refine map_modify fun _ => ?_
  rfl

@[simp]
theorem phases_stopFollowing (s : State) : s.stopFollowing.phases = s.phases := by
  simp only [stopFollowing]
  split
  case h_1 => rfl
  case h_2 i _ =>
    refine List.ext_getElem? fun j => ?_
    simp only [phases, List.getElem?_map, List.getElem?_modify]
    cases s.fetchers[j]? <;> simp
    split <;> rfl

@[simp]
theorem leader_stopFollowing (s : State) : s.stopFollowing.leader = s.leader := by
  unfold stopFollowing
  split <;> rfl

@[simp]
theorem follower_stopFollowing (s : State) : s.stopFollowing.follower = s.follower := by
  unfold stopFollowing
  split <;> rfl

@[simp]
theorem leader_startFollowing (s : State) : s.startFollowing.leader = s.leader := by
  unfold startFollowing
  split <;> rfl

@[simp]
theorem follower_startFollowing (s : State) : s.startFollowing.follower = s.follower := by
  unfold startFollowing
  split <;> rfl

theorem phases_startFollowing (s : State) :
    s.startFollowing.phases = s.phases ∨ s.startFollowing.phases = s.phases ++ [.waiting] := by
  simp only [startFollowing]
  split
  case h_1 => exact .inl rfl
  case h_2 => exact .inr (by simp [phases])

end State

-- What a round under way knows about the logs: it asks for the end of the follower's log, or what it
-- still has to append comes next in the leader's.
def Phase.Sound (L F : List Bytes) : Phase → Prop
  | fetching offset   => offset = F.length
  | appending batches => F ++ batches <+: L
  | waiting | exited  => True

-- At most one round is under way, and `P` holds of it.
def Rounds (P : Phase → Prop) (ps : List Phase) : Prop :=
  ∀ (i : Nat) (p : Phase), ps[i]? = some p → p.inFlight = true →
    P p ∧ ∀ (j : Nat) (q : Phase), ps[j]? = some q → q.inFlight = true → j = i

namespace Rounds

variable {ps : List Phase} {phase : Phase} {P Q : Phase → Prop}

theorem mono (h : Rounds P ps) (hPQ : ∀ p, p.inFlight = true → P p → Q p) : Rounds Q ps :=
  fun i p hp hf => ⟨hPQ p hf (h i p hp hf).left, (h i p hp hf).right⟩

theorem nil : Rounds P [] := by
  intro i p hp
  simp at hp

-- The only round that may be under way takes its next step, after which `Q` holds of it.
theorem set (hi : ∀ j q, ps[j]? = some q → q.inFlight = true → j = i) (hs : Q phase) : Rounds Q (ps.set i phase) := by
  have honly : ∀ j q, (ps.set i phase)[j]? = some q → q.inFlight = true → j = i := by
    intro j q hq hf
    by_cases hij : i = j
    case pos => exact hij.symm
    case neg =>
      rw [List.getElem?_set_ne hij] at hq
      exact hi j q hq hf
  intro j q hq hf
  have hj := honly j q hq hf
  subst hj
  refine ⟨?_, honly⟩
  have hq' := List.getElem?_eq_some_iff.mp hq
  rw [List.getElem?_set_self (by simpa using hq'.choose)] at hq
  rwa [← Option.some.inj hq]

-- No round starts.
theorem of_inFlight {ps' : List Phase} (h : Rounds P ps)
    (hsame : ∀ (j : Nat) (q : Phase), ps'[j]? = some q → q.inFlight = true → ps[j]? = some q) :
    Rounds P ps' := by
  intro j q hq hf
  have ⟨hs, honly⟩ := h j q (hsame j q hq hf) hf
  exact ⟨hs, fun k r hr hf' => honly k r (hsame k r hr hf') hf'⟩

theorem set_idle (h : Rounds P ps) (hphase : phase.inFlight = false) : Rounds P (ps.set i phase) := by
  refine h.of_inFlight fun j q hq hf => ?_
  by_cases hij : i = j
  case neg => rwa [List.getElem?_set_ne hij] at hq
  case pos =>
    subst hij
    have ⟨hlt, _⟩ := List.getElem?_eq_some_iff.mp hq
    rw [List.getElem?_set_self (by simpa using hlt)] at hq
    rw [← Option.some.inj hq, hphase] at hf
    contradiction

theorem snoc_waiting (h : Rounds P ps) : Rounds P (ps ++ [.waiting]) := by
  refine h.of_inFlight fun j q hq hf => ?_
  rw [List.getElem?_append] at hq
  split at hq
  case isTrue => exact hq
  case isFalse =>
    rw [List.mem_singleton.mp (List.mem_of_getElem? hq)] at hf
    contradiction

end Rounds

section Answer

variable {S bs : List Bytes} {topicName batch : Bytes} {batches : List Bytes} {l : Storage.Log}

theorem append_isPrefix (hF : F <+: L) (hS : S <+: L) (hbs : bs <+: S.drop F.length) : F ++ bs <+: L := by
  by_cases hle : F.length ≤ S.length
  case pos =>
    have ⟨rest, hrest⟩ := List.prefix_of_prefix_length_le hF hS hle
    rw [← hrest, List.drop_left] at hbs
    refine List.IsPrefix.trans ?_ (hrest ▸ hS)
    exact (List.prefix_append_right_inj F).mpr hbs
  case neg =>
    rw [List.drop_of_length_le (by omega)] at hbs
    rwa [List.prefix_nil.mp hbs, List.append_nil]

-- What a source with a part of the same log answers comes next in it.
theorem answer_isPrefix {response : Network.FetchPartitionResponse} (ht : topicName.length < 2 ^ 15)
    (hframed : ∀ b ∈ L, Framed b) (hF : F <+: L) (hS : S <+: L) (hr : Network.Answers S F.length response) :
    F ++ batchesOf (Network.writeFetchResponse [⟨topicName, [response]⟩]) <+: L := by
  obtain ⟨m, hrecords, -⟩ := hr.records
  rw [Int.toNat_natCast] at hrecords
  have hmem : ∀ b ∈ (S.drop F.length).take m, Framed b :=
    fun b hb => hframed b (hS.subset (List.mem_of_mem_drop (List.mem_of_mem_take hb)))
  exact append_isPrefix hF hS ((batchesOf_isPrefix ht hmem hrecords).trans (List.take_prefix _ _))

-- A fetcher appends the next of its batches.
theorem append_batch (hl : l.Stores F) (hframed : ∀ b ∈ L, Framed b ∧ b.length < 2 ^ 31) (hlen : L.length < 2 ^ 63)
    (hpre : F ++ batch :: batches <+: L) :
    ∃ l', l.append batch = (l', .ok F.length) ∧ l'.Stores (F ++ [batch]) ∧ F ++ [batch] ++ batches <+: L := by
  have hbatch := hframed batch (hpre.subset (by simp))
  have hle := hpre.length_le
  rw [List.length_append, List.length_cons] at hle
  obtain ⟨l', happend, hl'⟩ := hl.append (p := batch) (by omega) (by omega)
  exact ⟨l', happend, hl', by simpa using hpre⟩

end Answer

-- The follower's log is a prefix of the leader's, and so it stays when the round under way is done.
structure Inv (n : Nat) (s : State) (L F : List Bytes) : Prop where
  leader    : s.leader.Stores L
  follower  : s.follower.Stores F
  framed    : ∀ b ∈ L, Framed b ∧ b.length < 2 ^ 31
  isPrefix  : F <+: L
  length_le : L.length ≤ n
  rounds    : Rounds (Phase.Sound L F) s.phases

theorem Phase.Sound.mono {L' : List Bytes} {phase : Phase} (h : phase.Sound L F) (hL : L <+: L') :
    phase.Sound L' F := by
  cases phase
  case appending => exact List.IsPrefix.trans h hL
  all_goals exact h

theorem Phase.sound_ofBatches {batches : List Bytes} (h : F ++ batches <+: L) : (ofBatches batches).Sound L F := by
  cases batches
  case nil  => trivial
  case cons => exact h

namespace Inv

theorem leaderAppend {batch : Bytes} (h : Inv n s L F) (hn : n + 1 < 2 ^ 63)
    (hb : Framed batch ∧ batch.length < 2 ^ 31) :
    ∃ L', Inv (n + 1) { s with leader := (s.leader.appendWithOffset batch Network.Batch.stamp).fst } L' F := by
  have hle := h.length_le
  have ⟨l, happend, hl⟩ := h.leader.appendWithOffset (p := batch) Network.Batch.stamp (by omega) (by omega)
  let batch' := Network.Batch.withBaseOffset batch L.length
  have hL : (Storage.listAppend false L batch Network.Batch.stamp).fst = L ++ [batch'] := rfl
  have hbatch' : Framed batch' ∧ batch'.length < 2 ^ 31 := by
    have hsame := Network.Batch.sameBatch_withBaseOffset batch L.length
    exact ⟨hsame.framed hb.left, hsame.length ▸ hb.right⟩
  rw [hL] at hl
  rw [happend]
  exact ⟨L ++ [batch'], {
    leader    := hl
    follower  := h.follower
    framed    := List.forall_mem_append.mpr ⟨h.framed, List.forall_mem_singleton.mpr hbatch'⟩
    isPrefix  := h.isPrefix.trans (List.prefix_append _ _)
    length_le := by simpa using hle
    rounds    := h.rounds.mono fun _ _ hs => hs.mono (List.prefix_append _ _)
  }⟩

-- A step that leaves the logs alone.
theorem of_rounds {s' : State} (h : Inv n s L F) (hl : s'.leader = s.leader) (hf : s'.follower = s.follower)
    (hr : Rounds (Phase.Sound L F) s'.phases) : Inv (n + 1) s' L F where
  leader    := hl ▸ h.leader
  follower  := hf ▸ h.follower
  framed    := h.framed
  isPrefix  := h.isPrefix
  length_le := Nat.le_succ_of_le h.length_le
  rounds    := hr

-- The leader's answer to the round under way.
theorem answer {offset : Int} {response : Network.FetchPartitionResponse} {led : Option PartitionState}
    (h : Inv n s L F) (hp : s.phases[i]? = some (.fetching offset)) (hr : Network.Answers L offset response) :
    let batches := batchesOf (Network.writeFetchResponse [⟨p.topicName, [response]⟩])
    Inv (n + 1) ({ s with led }.setPhase i (.ofBatches batches)) L F := by
  intro batches
  obtain ⟨hoffset, honly⟩ := h.rounds i _ hp rfl
  obtain rfl : offset = F.length := hoffset
  have hpre : F ++ batches <+: L :=
    answer_isPrefix p.short (fun b hb => (h.framed b hb).left) h.isPrefix List.prefix_rfl hr
  clear_value batches
  refine h.of_rounds rfl rfl ?_
  rw [State.phases_setPhase]
  exact Rounds.set honly (Phase.sound_ofBatches hpre)

-- The round under way appends the next of its batches.
theorem append {batch : Bytes} {batches : List Bytes} (h : Inv n s L F) (hn : n + 1 < 2 ^ 63)
    (hp : s.phases[i]? = some (.appending (batch :: batches))) :
    ∃ follower o, s.follower.append batch = (follower, .ok o) ∧
      Inv (n + 1) ({ s with follower }.setPhase i (.ofBatches batches)) L (F ++ [batch]) := by
  obtain ⟨hsound, honly⟩ := h.rounds i _ hp rfl
  have hle := h.length_le
  obtain ⟨follower, happend, hf, hpre⟩ := append_batch h.follower h.framed (by omega) hsound
  refine ⟨follower, F.length, happend, {
    leader    := h.leader
    follower  := hf
    framed    := h.framed
    isPrefix  := (List.prefix_append _ _).trans hpre
    length_le := by omega
    rounds    := ?_
  }⟩
  rw [State.phases_setPhase]
  exact Rounds.set honly (Phase.sound_ofBatches hpre)

end Inv

-- One step: every round that starts has the follower's log for itself.
theorem inductive_inv (p : Partition) :
    (machine p).InductiveUpTo OneRound (2 ^ 63 - 1) fun n s _ => ∃ L F, Inv n s L F where
  step {n s a s' o os} hn hinv hc hs := by
    have ⟨L, F, h⟩ := hinv
    cases a
    case leaderAppend batch =>
      simp only [machine] at hs
      split at hs
      case isFalse => simp at hs
      case isTrue hb =>
        obtain ⟨rfl, rfl⟩ := Prod.mk.inj (Option.some.inj hs)
        have ⟨L', h'⟩ := h.leaderAppend (by omega) hb
        exact ⟨L', F, h'⟩
    case stopFollowing =>
      obtain ⟨rfl, rfl⟩ := Prod.mk.inj (Option.some.inj hs)
      exact ⟨L, F, h.of_rounds (by simp) (by simp) (by simpa using h.rounds)⟩
    case startFollowing =>
      obtain ⟨rfl, rfl⟩ := Prod.mk.inj (Option.some.inj hs)
      refine ⟨L, F, h.of_rounds (by simp) (by simp) ?_⟩
      cases s.phases_startFollowing
      case inl heq => exact heq ▸ h.rounds
      case inr heq => exact heq ▸ h.rounds.snoc_waiting
    case fetch i =>
      simp only [machine, State.phase?_eq] at hs
      split at hs
      case h_2 => simp at hs
      case h_1 hp =>
        obtain ⟨rfl, rfl⟩ := Prod.mk.inj (Option.some.inj hs)
        refine ⟨L, F, h.of_rounds rfl rfl ?_⟩
        rw [State.phases_setPhase]
        refine Rounds.set (fun j q hq hf => ?_) h.follower.endOffset
        have ⟨f, hmem, heq⟩ := List.mem_map.mp (List.mem_of_getElem? hq)
        rw [← heq, hc f hmem] at hf
        contradiction
    case answer i now =>
      simp only [machine, State.phase?_eq] at hs
      split at hs
      case h_2 => simp at hs
      case h_1 offset hp =>
        have ⟨response, hr, hfetch⟩ :=
          Network.fetchPartition_answers h.leader s.led p.followerID p.index offset fetchMaxBytes now
        rw [hfetch] at hs
        obtain ⟨rfl, rfl⟩ := Prod.mk.inj (Option.some.inj hs)
        exact ⟨L, F, h.answer hp hr⟩
    case append i =>
      simp only [machine, State.phase?_eq] at hs
      split at hs
      case h_2 => simp at hs
      case h_1 batch batches hp =>
        have ⟨follower, o, happend, h'⟩ := h.append (by omega) hp
        rw [happend] at hs
        obtain ⟨rfl, rfl⟩ := Prod.mk.inj (Option.some.inj hs)
        exact ⟨L, F ++ [batch], h'⟩
    case abandon i =>
      simp only [machine, State.phase?_eq] at hs
      split at hs
      case h_3 => simp at hs
      all_goals
        obtain ⟨rfl, rfl⟩ := Prod.mk.inj (Option.some.inj hs)
        refine ⟨L, F, h.of_rounds rfl rfl ?_⟩
        rw [State.phases_setPhase]
        exact h.rounds.set_idle rfl
    case exit i =>
      simp only [machine] at hs
      split at hs
      case h_2 => simp at hs
      case h_1 =>
        obtain ⟨rfl, rfl⟩ := Prod.mk.inj (Option.some.inj hs)
        refine ⟨L, F, h.of_rounds rfl rfl ?_⟩
        rw [State.phases_setPhase]
        exact h.rounds.set_idle rfl

section InSync

variable {led : Option PartitionState} {as : List Step}

theorem inv_init : Inv 0 (.init led) [] [] where
  leader    := Storage.Log.empty_stores
  follower  := Storage.Log.empty_stores
  framed    := by simp
  isPrefix  := List.nil_prefix
  length_le := le_rfl
  rounds    := .nil

-- The ends of both logs after a run.
def endOffsets (p : Partition) (as : List Step) : Option (Int × Int) :=
  ((machine p).run (.init none) as).map fun r => (r.fst.leader.endOffset, r.fst.follower.endOffset)

theorem exists_run_of_endOffsets {x y : Int} (h : endOffsets p as = some (x, y)) :
    ∃ s o, (machine p).run (.init none) as = some (s, o) ∧ s.leader.endOffset = x ∧
      s.follower.endOffset = y := by
  have ⟨⟨s, o⟩, hr, heq⟩ := Option.map_eq_some_iff.mp h
  exact ⟨s, o, hr, Prod.mk.inj heq⟩

def samplePartition : Partition where
  topicName  := [116]
  index      := 0
  followerID := 2
  short      := by decide

def sampleBatch : Bytes :=
  Network.Batch.headerOnly (-1) (-1) 1

-- The fetcher is replaced while its request is under way, and both fetchers append the answer.
def overlappingRounds : List Step := [
  .leaderAppend sampleBatch,
  .startFollowing, .fetch 0,
  .stopFollowing, .startFollowing, .fetch 1,
  .answer 0 0, .append 0,
  .answer 1 0, .append 1
]

theorem overlappingRounds_not_inSync :
    ∃ s o, (machine samplePartition).run (.init none) overlappingRounds = some (s, o) ∧ ¬s.InSync := by
  have hend : endOffsets samplePartition overlappingRounds = some (1, 2) := by decide +kernel
  have ⟨s, o, hr, hleader, hfollower⟩ := exists_run_of_endOffsets hend
  refine ⟨s, o, hr, ?_⟩
  rintro ⟨L, F, hL, hF, hpre⟩
  have hlen := hpre.length_le
  rw [hL.endOffset] at hleader
  rw [hF.endOffset] at hfollower
  omega

-- As long as rounds do not overlap, restarts do no harm.
theorem inSync_of_oneRound (hc : (machine p).Along OneRound (.init led) as)
    (hr : (machine p).run (.init led) as = some (s, o)) (hlen : as.length < 2 ^ 63) : s.InSync := by
  have ⟨L, F, h⟩ := (inductive_inv p).run_nil ⟨[], [], inv_init⟩ (by omega) hc hr
  exact ⟨L, F, h.leader.refines, h.follower.refines, h.isPrefix⟩

theorem inSync_of_oneRound_restart :
    let as : List Step := [
      .leaderAppend sampleBatch,
      .startFollowing, .fetch 0, .answer 0 0, .append 0,
      .stopFollowing, .startFollowing,
      .leaderAppend sampleBatch,
      .fetch 1, .answer 1 0, .append 1,
      .exit 0
    ]
    ∃ s o, (machine samplePartition).run (.init none) as = some (s, o) ∧ s.follower.endOffset = 2 ∧
      s.InSync := by
  intro as
  have hend : endOffsets samplePartition as = some (2, 2) := by decide +kernel
  have ⟨s, o, hr, _, hfollower⟩ := exists_run_of_endOffsets hend
  have hc : (machine samplePartition).Along OneRound (.init none) as := by decide +kernel
  exact ⟨s, o, hr, hfollower, inSync_of_oneRound hc hr (by decide)⟩

end InSync

end Replication.Following
