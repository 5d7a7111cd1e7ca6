import Gokaf.Network.Acks
import Gokaf.Network.Theorems.Parking
import Gokaf.Network.Theorems.Replica

open Go Protocol Replication

namespace Network

namespace Acking

-- The log has the first entries of the leader's.
def Copies (l : Storage.Log) (L : List Bytes) : Prop :=
  ∃ F, l.Stores F ∧ F <+: L

section Copies

variable {l leader : Storage.Log} {L L' : List Bytes}

theorem Copies.endOffset_nonneg (h : Copies l L) : 0 ≤ l.endOffset := by
  obtain ⟨F, hF, _⟩ := h
  rw [hF.endOffset]
  exact Int.natCast_nonneg _

theorem Copies.endOffset_le (h : Copies l L) : l.endOffset ≤ L.length := by
  obtain ⟨F, hF, hpre⟩ := h
  rw [hF.endOffset]
  exact Int.ofNat_le.mpr hpre.length_le

theorem Copies.mono (h : Copies l L) (hpre : L <+: L') : Copies l L' := by
  obtain ⟨F, hF, hpre'⟩ := h
  exact ⟨F, hF, hpre'.trans hpre⟩

-- What the leader answers to a fetch whose end offset need not be the newest.
theorem exists_batchesOf {topicName : Bytes} (ht : topicName.length < 2 ^ 15) (h : leader.Stores L)
    (hL : ∀ b ∈ L, Framed b ∧ b.length < 2 ^ 31) {n : Nat} {e : Int} (hn : n ≤ e) (he : e ≤ L.length)
    (partitionIndex highWatermark maxBytes : Int) :
    ∃ k, n + k ≤ L.length ∧ (n < e → 0 < k) ∧ batchesOf (writeFetchResponse [⟨topicName, [answerFetch storageLog leader
      partitionIndex e highWatermark n maxBytes]⟩]) = (L.drop n).take k := by
  have htotal : ∀ k, ∀ b ∈ (L.drop n).take k, 12 + BigEndian.uint (slice b 8 12) = b.length := fun k b hb =>
    (hL b (List.mem_of_mem_drop (List.mem_of_mem_take hb))).left.length_eq
  by_cases heq : (n : Int) = e
  case pos =>
    subst heq
    refine ⟨0, by omega, by omega, batchesOf_eq ht ?_ (htotal 0) ?_ (by simp)⟩
    · rw [answerFetch, if_neg (by omega), if_pos rfl]
    · rw [answerFetch, if_neg (by omega), if_pos rfl]
      rfl
  case neg =>
    obtain ⟨k, hle, hpos, hsize, hcode, hrecords⟩ :=
      exists_answerFetch h (fun b hb => (hL b hb).right) (n := n) (by omega) partitionIndex highWatermark maxBytes
    have hanswer : answerFetch storageLog leader partitionIndex e highWatermark n maxBytes =
        answerFetch storageLog leader partitionIndex leader.endOffset highWatermark n maxBytes := by
      rw [h.endOffset, answerFetch, answerFetch, if_neg (by omega), if_neg heq, if_neg (by omega), if_neg (by omega)]
    refine ⟨k, hle, fun _ => hpos (by omega), ?_⟩
    rw [hanswer]
    exact batchesOf_eq ht hcode (htotal k) hrecords hsize

-- A round of a follower.
theorem Copies.appendAll (h : Copies l L) (hL : ∀ b ∈ L, Framed b ∧ b.length < 2 ^ 31) (hlen : L.length < 2 ^ 63)
    {n k : Nat} (hend : l.endOffset = n) (hk : n + k ≤ L.length) :
    Copies (appendAll l ((L.drop n).take k)) L ∧ (Replication.appendAll l ((L.drop n).take k)).endOffset = n + k := by
  obtain ⟨F, hF, hpre⟩ := h
  rw [hF.endOffset] at hend
  have hF' : F = L.take n := by
    rw [List.prefix_iff_eq_take.mp hpre]
    congr 1
    omega
  have hlen' : ((L.drop n).take k).length = k := by
    rw [List.length_take, List.length_drop]
    omega
  have hstores : (Replication.appendAll l ((L.drop n).take k)).Stores (F ++ (L.drop n).take k) := by
    refine appendAll_stores hF (fun b hb => ?_) (fun _ => by omega)
    have := (hL b (List.mem_of_mem_drop (List.mem_of_mem_take hb))).right
    omega
  refine ⟨⟨_, hstores, ?_⟩, ?_⟩
  · rw [hF', ← List.take_add]
    exact List.take_prefix _ _
  · rw [hstores.endOffset, List.length_append, hlen']
    omega

end Copies

-- What a round of a follower knows while it is under way.
structure Round (followers : Int → Storage.Log) (st : PartitionState) (L : List Bytes) (f : Fetch) : Prop where
  fetchOffset  : f.fetchOffset = (followers f.replicaID).endOffset
  le_endOffset : f.fetchOffset ≤ f.endOffset
  endOffset_le : f.endOffset ≤ L.length
  recorded     : f.recorded → (st.followerOffset f.replicaID).getD 0 = f.fetchOffset

structure Copying (n : Nat) (s : State) (st : PartitionState) (L : List Bytes) : Prop where
  leader     : s.leader.log.Stores L
  framed     : ∀ b ∈ L, Framed b ∧ b.length < 2 ^ 31
  length_le  : L.length ≤ n
  pending    : ∀ c ∈ s.leader.calls, ¬c.isPast → c.response.baseOffset < L.length
  follower   : ∀ r, 0 ≤ r → Copies (s.followers r) L
  offset     : ∀ r, 0 ≤ r → (st.followerOffset r).getD 0 ≤ (s.followers r).endOffset
  distinct   : (s.fetches.map (·.replicaID)).Pairwise fun r r' => 0 ≤ r → r ≠ r'
  round      : ∀ f ∈ s.fetches, 0 ≤ f.replicaID → Round s.followers st L f
  unrecorded : ∀ f ∈ s.fetches, ¬f.recorded → 0 ≤ f.replicaID

-- A follower has one round under way at most, and batches tell their own length.
def Regular (s : State) : Step → Prop
  | .produce batch _ _ => Framed batch ∧ batch.length < 2 ^ 31
  | .fetch replicaID   => ∀ f ∈ s.fetches, f.replicaID ≠ replicaID
  | _                  => True

instance (s : State) : DecidablePred (Regular s) := fun a => by
  induction a using Step.casesOn <;> dsimp only [Regular] <;> infer_instance

variable {p : Setup} {n : Nat} {s s' : State} {st st' : PartitionState} {L : List Bytes} {a : Step} {o : List Answer}

namespace Copying

-- The calls of the leader go on; its log and the followers stay as they are.
theorem continues {leader : Leading} {now : Int} (h : Copying n s st L) (hlog : leader.log = s.leader.log)
    (hcont : s.leader.Continues leader) (hoffset : st'.followerOffset = st.followerOffset) :
    Copying (n + 1) { s with leader, now } st' L where
  leader     := hlog ▸ h.leader
  framed     := h.framed
  length_le  := Nat.le_succ_of_le h.length_le
  pending c' hc' hnot := by
    obtain ⟨c, hc, hp⟩ := hcont.right c' hc'
    rw [hp.baseOffset]
    exact h.pending c hc (mt hp.past hnot)
  follower   := h.follower
  offset     := hoffset ▸ h.offset
  distinct   := h.distinct
  round f hf hr := by
    obtain ⟨h₁, h₂, h₃, h₄⟩ := h.round f hf hr
    exact ⟨h₁, h₂, h₃, hoffset ▸ h₄⟩
  unrecorded := h.unrecorded

theorem produce {batch : Bytes} {acks timeoutMS : Int} (h : Copying n s st L) (hn : n + 1 < 2 ^ 63)
    (hb : Framed batch ∧ batch.length < 2 ^ 31) :
    ∃ L', L <+: L' ∧ Copying (n + 1) { s with
      leader := s.leader.produce p.nodeID (some p.nodeID) p.topicName p.partitionIndex batch acks timeoutMS
    } st L' := by
  have hle := h.length_le
  have hshort : batch.length < 2 ^ 32 := by omega
  obtain ⟨producers, log, produced, hp, hcases⟩ := Leading.producePartition_cases h.leader p.nodeID (some p.nodeID)
    p.topicName p.partitionIndex hshort (by omega)
  simp only [Leading.produce, hp]
  cases hcases
  case inl hsame =>
    obtain ⟨rfl, r, rfl, _⟩ := hsame
    refine ⟨L, List.prefix_rfl, {
      leader := h.leader, framed := h.framed, length_le := by omega, pending := ?_, follower := h.follower
      offset := h.offset, distinct := h.distinct, round := h.round, unrecorded := h.unrecorded }⟩
    intro c hc hnot
    cases List.mem_append.mp hc
    case inl hold => exact h.pending c hold hnot
    case inr hnew =>
      cases List.mem_singleton.mp hnew
      exact absurd rfl hnot
  case inr hmore =>
    obtain ⟨_, hlog, rfl⟩ := hmore
    have hpre : L <+: L ++ [Batch.withBaseOffset batch L.length] := List.prefix_append _ _
    have hsame := Batch.sameBatch_withBaseOffset batch L.length
    have hframed : Framed (Batch.withBaseOffset batch L.length) ∧
        (Batch.withBaseOffset batch L.length).length < 2 ^ 31 :=
      ⟨hsame.framed hb.left, hsame.length ▸ hb.right⟩
    refine ⟨_, hpre, {
      leader     := hlog
      framed     := List.forall_mem_append.mpr ⟨h.framed, List.forall_mem_singleton.mpr hframed⟩
      length_le  := by simpa using hle
      pending    := ?_
      follower   := fun r hr => (h.follower r hr).mono hpre
      offset     := h.offset
      distinct   := h.distinct
      round      := ?_
      unrecorded := h.unrecorded }⟩
    · intro c hc hnot
      rw [List.length_append, List.length_singleton]
      cases List.mem_append.mp hc
      case inl hold =>
        have := h.pending c hold hnot
        omega
      case inr hnew =>
        cases List.mem_singleton.mp hnew
        dsimp only [Produced.response]
        omega
    · intro f hf hr
      obtain ⟨h₁, h₂, h₃, h₄⟩ := h.round f hf hr
      refine ⟨h₁, h₂, ?_, h₄⟩
      have := Int.ofNat_le.mpr hpre.length_le
      omega

-- A follower or a consumer begins to fetch.
theorem begins {f : Fetch} (h : Copying n s st L) (hend : f.endOffset = L.length)
    (hid : 0 ≤ f.replicaID → f.fetchOffset = (s.followers f.replicaID).endOffset ∧ ¬f.recorded ∧
      ∀ g ∈ s.fetches, g.replicaID ≠ f.replicaID) (hrecorded : ¬f.recorded → 0 ≤ f.replicaID) :
    Copying (n + 1) { s with fetches := s.fetches ++ [f] } st L where
  leader     := h.leader
  framed     := h.framed
  length_le  := Nat.le_succ_of_le h.length_le
  pending    := h.pending
  follower   := h.follower
  offset     := h.offset
  distinct   := by
    rw [List.map_append, List.map_singleton, List.pairwise_append]
    refine ⟨h.distinct, List.pairwise_singleton _ _, ?_⟩
    simp only [List.mem_map, List.mem_singleton, forall_exists_index, and_imp]
    rintro _ g hg rfl _ rfl hr heq
    exact (hid (heq ▸ hr)).right.right g hg heq
  round g hg hr := by
    cases List.mem_append.mp hg
    case inl hold => exact h.round g hold hr
    case inr hnew =>
      cases List.mem_singleton.mp hnew
      obtain ⟨hoffset, hnot, _⟩ := hid hr
      refine ⟨hoffset, ?_, hend.le, fun hrec => absurd hrec hnot⟩
      rw [hoffset, hend]
      exact (h.follower _ hr).endOffset_le
  unrecorded g hg hnot := by
    cases List.mem_append.mp hg
    case inl hold => exact h.unrecorded g hold hnot
    case inr hnew =>
      cases List.mem_singleton.mp hnew
      exact hrecorded hnot

-- Another fetch under way is not of the same follower.
theorem ne_of_ne {i j : Nat} {f g : Fetch} (h : Copying n s st L) (hi : s.fetches[i]? = some f)
    (hj : s.fetches[j]? = some g) (hne : j ≠ i) (hr : 0 ≤ f.replicaID) : g.replicaID ≠ f.replicaID := by
  obtain ⟨hilt, rfl⟩ := List.getElem?_eq_some_iff.mp hi
  obtain ⟨hjlt, rfl⟩ := List.getElem?_eq_some_iff.mp hj
  have hdistinct := List.pairwise_map.mp h.distinct
  rw [List.pairwise_iff_getElem] at hdistinct
  cases Nat.lt_or_gt_of_ne hne
  case inl hlt => exact fun heq => hdistinct j i hjlt hilt hlt (heq ▸ hr) heq
  case inr hlt => exact fun heq => hdistinct i j hilt hjlt hlt hr heq.symm

theorem records {i : Nat} {f : Fetch} {ws : List Waiter} (h : Copying n s st L) (hi : s.fetches[i]? = some f)
    (hr : 0 ≤ f.replicaID)
    (hoffset : st'.followerOffset = Function.update st.followerOffset f.replicaID (some f.fetchOffset)) :
    Copying (n + 1) { s with
      leader := s.leader.recorded (some st') ws, fetches := s.fetches.set i { f with recorded := true } } st' L := by
  have hround := h.round f (List.mem_of_getElem? hi) hr
  have hset : ∀ g ∈ s.fetches.set i { f with recorded := true },
      g = { f with recorded := true } ∨ g ∈ s.fetches ∧ (0 ≤ f.replicaID → g.replicaID ≠ f.replicaID) := by
    intro g hg
    obtain ⟨j, hj⟩ := List.mem_iff_getElem?.mp hg
    by_cases hij : j = i
    case pos =>
      subst hij
      rw [List.getElem?_set_self (List.getElem?_eq_some_iff.mp hi).choose] at hj
      exact .inl (Option.some.inj hj).symm
    case neg =>
      rw [List.getElem?_set_ne (Ne.symm hij)] at hj
      exact .inr ⟨List.mem_of_getElem? hj, h.ne_of_ne hi hj hij⟩
  have hids : (s.fetches.set i { f with recorded := true }).map (·.replicaID) = s.fetches.map (·.replicaID) := by
    refine List.ext_getElem? fun j => ?_
    rw [List.getElem?_map, List.getElem?_map, List.getElem?_set]
    by_cases hij : i = j
    case pos =>
      subst hij
      rw [if_pos rfl, if_pos (List.getElem?_eq_some_iff.mp hi).choose, hi]
      rfl
    case neg => rw [if_neg hij]
  refine {
    leader     := h.leader
    framed     := h.framed
    length_le  := Nat.le_succ_of_le h.length_le
    pending    := fun c' hc' hnot => ?_
    follower   := h.follower
    offset     := fun r hr' => ?_
    distinct   := hids ▸ h.distinct
    round      := fun g hg hr' => ?_
    unrecorded := fun g hg hnot => ?_ }
  · obtain ⟨c, hc, hp⟩ := (s.leader.continues_recorded (some st') ws).right c' hc'
    rw [hp.baseOffset]
    exact h.pending c hc (mt hp.past hnot)
  · rw [hoffset]
    by_cases heq : r = f.replicaID
    case pos =>
      subst heq
      rw [Function.update_self, Option.getD_some]
      exact hround.fetchOffset.le
    case neg =>
      rw [Function.update_of_ne heq]
      exact h.offset r hr'
  · cases hset g hg
    case inl heq =>
      subst heq
      exact ⟨hround.fetchOffset, hround.le_endOffset, hround.endOffset_le, fun _ => by simp [hoffset]⟩
    case inr hold =>
      obtain ⟨h₁, h₂, h₃, h₄⟩ := h.round g hold.left hr'
      refine ⟨h₁, h₂, h₃, ?_⟩
      rw [hoffset, Function.update_of_ne (hold.right hr)]
      exact h₄
  · cases hset g hg
    case inl heq  => exact absurd (by rw [heq]) hnot
    case inr hold => exact h.unrecorded g hold.left hnot

-- A round ends, and its follower has more of the leader's entries.
theorem answers {i : Nat} {f : Fetch} {ws : List Waiter} {followers : Int → Storage.Log} (h : Copying n s st L)
    (hi : s.fetches[i]? = some f) (hoffset : st'.followerOffset = st.followerOffset)
    (hcopies : 0 ≤ f.replicaID → Copies (followers f.replicaID) L ∧
      (s.followers f.replicaID).endOffset ≤ (followers f.replicaID).endOffset)
    (hsame : ∀ r, r ≠ f.replicaID ∨ f.replicaID < 0 → followers r = s.followers r) :
    Copying (n + 1) { s with
      leader := s.leader.recorded (some st') ws, followers, fetches := s.fetches.eraseIdx i } st' L := by
  have herase : ∀ g ∈ s.fetches.eraseIdx i, g ∈ s.fetches ∧ (0 ≤ f.replicaID → g.replicaID ≠ f.replicaID) := by
    intro g hg
    obtain ⟨j, hij, hj⟩ := List.mem_eraseIdx_iff_getElem?.mp hg
    exact ⟨List.mem_of_getElem? hj, h.ne_of_ne hi hj hij⟩
  have hfollower : ∀ r, 0 ≤ r → Copies (followers r) L ∧ (s.followers r).endOffset ≤ (followers r).endOffset := by
    intro r hr
    by_cases heq : r = f.replicaID
    case pos =>
      subst heq
      exact hcopies hr
    case neg =>
      rw [hsame r (.inl heq)]
      exact ⟨h.follower r hr, le_refl _⟩
  refine {
    leader     := h.leader
    framed     := h.framed
    length_le  := Nat.le_succ_of_le h.length_le
    pending    := fun c' hc' hnot => ?_
    follower   := fun r hr => (hfollower r hr).left
    offset     := fun r hr => ?_
    distinct   := h.distinct.sublist ((List.eraseIdx_sublist _ _).map _)
    round      := fun g hg hr => ?_
    unrecorded := fun g hg => h.unrecorded g (herase g hg).left }
  · obtain ⟨c, hc, hp⟩ := (s.leader.continues_recorded (some st') ws).right c' hc'
    rw [hp.baseOffset]
    exact h.pending c hc (mt hp.past hnot)
  · rw [hoffset]
    exact (h.offset r hr).trans (hfollower r hr).right
  · obtain ⟨hmem, hne⟩ := herase g hg
    obtain ⟨h₁, h₂, h₃, h₄⟩ := h.round g hmem hr
    have hg' : followers g.replicaID = s.followers g.replicaID := by
      refine hsame _ ?_
      by_cases hf : 0 ≤ f.replicaID
      case pos => exact .inl (hne hf)
      case neg => exact .inr (not_le.mp hf)
    exact ⟨h₁.trans (by rw [← hg']), h₂, h₃, hoffset ▸ h₄⟩

end Copying

-- The follower whose round a step completes.
def State.completes (s : State) : Step → Option Int
  | .highWatermark i => s.fetches[i]?.map (·.replicaID)
  | _                => none

-- What a step means for the follower `r`.
inductive Goes (r : Int) (s : State) (st : PartitionState) (L : List Bytes) (s' : State) (st' : PartitionState) :
    Option Int → Prop
  | stays {completed : Option Int} : completed ≠ some r → s'.followers r = s.followers r →
    st'.followerOffset r = st.followerOffset r →
    (∀ f ∈ s'.fetches, f.replicaID = r → f ∈ s.fetches ∨ f.endOffset = L.length) → Goes r s st L s' st' completed
  | records : s'.followers r = s.followers r → (st'.followerOffset r).getD 0 = (s.followers r).endOffset →
    (∀ f ∈ s'.fetches, f.replicaID = r → ∃ g ∈ s.fetches, g.replicaID = r ∧ g.endOffset = f.endOffset) →
    Goes r s st L s' st' none
  | completes {f : Fetch} : f ∈ s.fetches → f.replicaID = r →
    (s.followers r).endOffset ≤ (s'.followers r).endOffset →
    ((s.followers r).endOffset < f.endOffset → (s.followers r).endOffset < (s'.followers r).endOffset) →
    (st'.followerOffset r).getD 0 = (s.followers r).endOffset → (∀ g ∈ s'.fetches, g.replicaID ≠ r) →
    Goes r s st L s' st' (some r)

structure Replicating (p : Setup) (n : Nat) (s : State) (st : PartitionState) (L : List Bytes) : Prop where
  parks    : s.leader.Parks st
  copying  : Copying n s st L
  replicas : st.replicas = p.replicas
  leaderID : st.leaderID = p.nodeID

-- What is known after a step, in terms of what was known before it.
structure After (p : Setup) (n : Nat) (s : State) (st : PartitionState) (L : List Bytes) (s' : State)
    (completed : Option Int) (st' : PartitionState) (L' : List Bytes) : Prop where
  replicating : Replicating p (n + 1) s' st' L'
  isPrefix    : L <+: L'
  goes        : ∀ r, 0 ≤ r → Goes r s st L s' st' completed
  nextID_le   : s.leader.nextID ≤ s'.leader.nextID
  calls       : ∀ c' ∈ s'.leader.calls, (∃ c ∈ s.leader.calls, c.Passes c') ∨ c'.id = s.leader.nextID

namespace Replicating

-- Only the calls of the leader go on.
theorem continues {leader : Leading} {now : Int} {completed : Option Int} (h : Replicating p n s st L)
    (hcompleted : completed = none) (hparks : leader.Parks st') (hlog : leader.log = s.leader.log)
    (hcont : s.leader.Continues leader) (hreplicas : st'.replicas = st.replicas)
    (hleaderID : st'.leaderID = st.leaderID) (hoffset : st'.followerOffset = st.followerOffset) :
    After p n s st L { s with leader, now } completed st' L where
  replicating := {
    parks    := hparks
    copying  := h.copying.continues hlog hcont hoffset
    replicas := hreplicas.trans h.replicas
    leaderID := hleaderID.trans h.leaderID
  }
  isPrefix    := List.prefix_rfl
  goes r _    := .stays (by simp [hcompleted]) rfl (by rw [hoffset]) fun f hf _ => .inl hf
  nextID_le   := hcont.left.ge
  calls c' hc' := .inl (hcont.right c' hc')

theorem produce {batch : Bytes} (h : Replicating p n s st L) (hn : n + 1 < 2 ^ 63)
    (hb : Framed batch ∧ batch.length < 2 ^ 31) (acks timeoutMS : Int) :
    ∃ L', After p n s st L { s with
      leader := s.leader.produce p.nodeID (some p.nodeID) p.topicName p.partitionIndex batch acks timeoutMS
    } none st L' := by
  obtain ⟨L', hpre, hcopying⟩ := h.copying.produce (p := p) hn hb
  have hparks := h.parks.produce p.nodeID (some p.nodeID) p.topicName p.partitionIndex batch acks timeoutMS
  refine ⟨L', ⟨⟨hparks, hcopying, h.replicas, h.leaderID⟩, hpre, fun r _ => ?_, Nat.le_succ _,
    fun c' hc' => ?_⟩⟩
  · exact .stays (by simp) rfl rfl fun f hf _ => .inl hf
  · simp only [Leading.produce] at hc'
    cases List.mem_append.mp hc'
    case inl hold => exact .inl ⟨c', hold, .refl c'⟩
    case inr hnew =>
      rw [List.mem_singleton.mp hnew]
      exact .inr rfl

theorem begins {f : Fetch} (h : Replicating p n s st L) (hend : f.endOffset = L.length)
    (hid : 0 ≤ f.replicaID → f.fetchOffset = (s.followers f.replicaID).endOffset ∧ ¬f.recorded ∧
      ∀ g ∈ s.fetches, g.replicaID ≠ f.replicaID) (hrecorded : ¬f.recorded → 0 ≤ f.replicaID) :
    After p n s st L { s with fetches := s.fetches ++ [f] } none st L where
  replicating := ⟨h.parks, h.copying.begins hend hid hrecorded, h.replicas, h.leaderID⟩
  isPrefix    := List.prefix_rfl
  goes r _    := by
    refine .stays (by simp) rfl rfl fun g hg _ => (List.mem_append.mp hg).imp_right fun hnew => ?_
    rw [List.mem_singleton.mp hnew]
    exact hend
  nextID_le   := Nat.le_refl _
  calls c hc  := .inl ⟨c, hc, .refl c⟩

theorem records {i : Nat} {f : Fetch} (h : Replicating p n s st L) (hi : s.fetches[i]? = some f) (hnot : ¬f.recorded) :
    let r := st.recordFollowerFetch f.replicaID f.fetchOffset f.endOffset s.now
    After p n s st L { s with
      leader  := s.leader.recorded (some r.fst) r.snd
      fetches := s.fetches.set i { f with recorded := true } } none r.fst L := by
  intro r
  have hr := st.recordFollowerFetch_recomputed f.replicaID f.fetchOffset f.endOffset s.now
  have hmem := List.mem_of_getElem? hi
  have hid := h.copying.unrecorded f hmem hnot
  have hround := h.copying.round f hmem hid
  have hoffset : r.fst.followerOffset = Function.update st.followerOffset f.replicaID (some f.fetchOffset) := by
    rw [hr.eq]
    rfl
  have hcont := s.leader.continues_recorded (some r.fst) r.snd
  have hparks := h.parks.recompute (t := st.fetched f.replicaID f.fetchOffset f.endOffset s.now) rfl rfl s.now
    (h.parks.short.recordFollowerFetch h.parks.unsatisfied hround.le_endOffset)
  refine ⟨⟨hparks, h.copying.records hi hid hoffset, ?_, ?_⟩, List.prefix_rfl, fun b hb => ?_, hcont.left.ge,
    fun c' hc' => .inl (hcont.right c' hc')⟩
  · exact (congrArg PartitionState.replicas hr.eq).trans h.replicas
  · exact (congrArg PartitionState.leaderID hr.eq).trans h.leaderID
  · have hfetches : ∀ g ∈ s.fetches.set i { f with recorded := true },
        ∃ g' ∈ s.fetches, g'.replicaID = g.replicaID ∧ g'.endOffset = g.endOffset := by
      intro g hg
      cases List.mem_or_eq_of_mem_set hg
      case inl hold => exact ⟨g, hold, rfl, rfl⟩
      case inr heq  => exact ⟨f, hmem, by rw [heq], by rw [heq]⟩
    by_cases heq : b = f.replicaID
    case pos =>
      subst heq
      refine .records rfl ?_ fun g hg hid' => ?_
      · rw [hoffset, Function.update_self, Option.getD_some, hround.fetchOffset]
      · obtain ⟨g', hg', hid'', hend⟩ := hfetches g hg
        exact ⟨g', hg', hid''.trans hid', hend⟩
    case neg =>
      refine .stays (by simp) rfl (by rw [hoffset, Function.update_of_ne heq]) fun g hg hid' => .inl ?_
      refine (List.mem_or_eq_of_mem_set hg).resolve_right fun hnew => ?_
      rw [hnew] at hid'
      exact heq hid'.symm

-- A round that is completed before the leader has more makes its follower catch up by one entry at least.
theorem answers {i : Nat} {f : Fetch} (ht : p.topicName.length < 2 ^ 15) (hn : n < 2 ^ 63) (h : Replicating p n s st L)
    (hi : s.fetches[i]? = some f) (hrecorded : f.recorded) :
    let r := st.updateHighWatermark f.endOffset s.now
    let batches := batchesOf (writeFetchResponse [⟨p.topicName, [answerFetch storageLog s.leader.log p.partitionIndex
      f.endOffset r.fst.highWatermark f.fetchOffset fetchMaxBytes]⟩])
    After p n s st L { s with
      leader    := s.leader.recorded (some r.fst) r.snd
      followers :=
        if 0 ≤ f.replicaID then
          Function.update s.followers f.replicaID (appendAll (s.followers f.replicaID) batches)
        else
          s.followers
      fetches   := s.fetches.eraseIdx i } (some f.replicaID) r.fst L := by
  intro r batches
  have hr := st.updateHighWatermark_recomputed f.endOffset s.now
  have hmem := List.mem_of_getElem? hi
  have hoffset : r.fst.followerOffset = st.followerOffset := by rw [hr.eq]
  have hcont := s.leader.continues_recorded (some r.fst) r.snd
  have hparks := h.parks.recompute (t := { st with leaderEndOffset := f.endOffset }) rfl rfl s.now
    (h.parks.short.updateHighWatermark f.endOffset)
  have hround : 0 ≤ f.replicaID → Copies (appendAll (s.followers f.replicaID) batches) L ∧
      (s.followers f.replicaID).endOffset ≤ (appendAll (s.followers f.replicaID) batches).endOffset ∧
      ((s.followers f.replicaID).endOffset < f.endOffset →
        (s.followers f.replicaID).endOffset < (appendAll (s.followers f.replicaID) batches).endOffset) := by
    intro hid
    obtain ⟨hfetchOffset, hle, hend, _⟩ := h.copying.round f hmem hid
    have hfollower := h.copying.follower _ hid
    obtain ⟨m, hm⟩ := Int.eq_ofNat_of_zero_le hfollower.endOffset_nonneg
    have hlen := h.copying.length_le
    rw [hfetchOffset, hm] at hle
    obtain ⟨k, hk, hpos, hbatches⟩ := exists_batchesOf ht h.copying.leader h.copying.framed hle hend p.partitionIndex
      r.fst.highWatermark fetchMaxBytes
    have hbatches' : batches = (L.drop m).take k := by
      rw [← hbatches]
      simp only [batches, hfetchOffset, hm]
    obtain ⟨hcopies, hnew⟩ := hfollower.appendAll h.copying.framed (by omega) hm hk
    rw [hbatches', hnew, hm]
    exact ⟨hcopies, by omega, fun hlt => by have := hpos hlt; omega⟩
  have hself : 0 ≤ f.replicaID → (if 0 ≤ f.replicaID then Function.update s.followers f.replicaID
      (appendAll (s.followers f.replicaID) batches) else s.followers) f.replicaID =
      appendAll (s.followers f.replicaID) batches := by
    intro hid
    rw [if_pos hid, Function.update_self]
  have hother : ∀ b, b ≠ f.replicaID ∨ f.replicaID < 0 → (if 0 ≤ f.replicaID then
      Function.update s.followers f.replicaID (appendAll (s.followers f.replicaID) batches) else s.followers) b =
        s.followers b := by
    intro b hb
    split
    case isTrue hid => exact Function.update_of_ne (hb.resolve_right (not_lt.mpr hid)) _ _
    case isFalse    => rfl
  generalize (if 0 ≤ f.replicaID then Function.update s.followers f.replicaID
    (appendAll (s.followers f.replicaID) batches) else s.followers) = followers at hself hother
  have hfollower : 0 ≤ f.replicaID → Copies (followers f.replicaID) L ∧
      (s.followers f.replicaID).endOffset ≤ (followers f.replicaID).endOffset := by
    intro hid
    rw [hself hid]
    exact ⟨(hround hid).left, (hround hid).right.left⟩
  refine ⟨⟨hparks, h.copying.answers hi hoffset hfollower hother, ?_, ?_⟩, List.prefix_rfl, fun b hb => ?_,
    hcont.left.ge, fun c' hc' => .inl (hcont.right c' hc')⟩
  · exact (congrArg PartitionState.replicas hr.eq).trans h.replicas
  · exact (congrArg PartitionState.leaderID hr.eq).trans h.leaderID
  · by_cases heq : b = f.replicaID
    case pos =>
      subst heq
      obtain ⟨_, hle, hlt⟩ := hround hb
      have hround' := h.copying.round f hmem hb
      rw [← hself hb] at hle hlt
      refine .completes hmem rfl hle hlt ?_ fun g hg => ?_
      · rw [hoffset, hround'.recorded hrecorded, hround'.fetchOffset]
      · obtain ⟨j, hij, hj⟩ := List.mem_eraseIdx_iff_getElem?.mp hg
        exact h.copying.ne_of_ne hi hj hij hb
    case neg =>
      refine .stays (by simpa using Ne.symm heq) (hother b (.inl heq)) (by rw [hoffset]) fun g hg _ => .inl ?_
      exact List.mem_of_mem_eraseIdx hg

theorem step (ht : p.topicName.length < 2 ^ 15) (hn : n + 1 < 2 ^ 63) (h : Replicating p n s st L) (hc : Regular s a)
    (hs : (machine p).step s a = some (s', o)) : ∃ st' L', After p n s st L s' (s.completes a) st' L' := by
  cases a
  case produce batch acks timeoutMS =>
    cases Option.some.inj hs
    obtain ⟨L', h'⟩ := h.produce hn hc acks timeoutMS
    exact ⟨st, L', h'⟩
  case await id =>
    obtain ⟨leader, hawait, heq⟩ := Option.map_eq_some_iff.mp hs
    cases heq
    obtain ⟨st', hparks, hreplicas, hleaderID, hoffset, hcont⟩ := h.parks.await hawait
    exact ⟨st', L, h.continues rfl hparks (Leading.log_of_await hawait) hcont hreplicas hleaderID hoffset⟩
  case expire id =>
    obtain ⟨leader, hexpire, heq⟩ := Option.map_eq_some_iff.mp hs
    cases heq
    obtain ⟨hparks, hcont⟩ := h.parks.expire hexpire
    exact ⟨_, L, h.continues rfl hparks (Leading.log_of_expire hexpire) hcont rfl rfl rfl⟩
  case finish id =>
    obtain ⟨⟨leader, c⟩, hfinish, heq⟩ := Option.map_eq_some_iff.mp hs
    cases heq
    obtain ⟨hparks, hcont⟩ := h.parks.finish hfinish
    exact ⟨st, L, h.continues rfl hparks (Leading.log_of_finish hfinish) hcont rfl rfl rfl⟩
  case fetch replicaID =>
    cases Option.some.inj hs
    exact ⟨st, L, h.begins h.copying.leader.endOffset (fun hid => ⟨rfl, by simpa using hid, hc⟩) (by simp)⟩
  case consume offset =>
    cases Option.some.inj hs
    exact ⟨st, L, h.begins h.copying.leader.endOffset (fun hid => absurd hid (by simp)) (by simp)⟩
  case recordFollowerFetch i =>
    simp only [machine, h.parks.led] at hs
    split at hs
    case h_2 => contradiction
    case h_1 f st₀ hi hst =>
      cases Option.some.inj hst
      split at hs
      case isTrue => contradiction
      case isFalse hnot =>
        cases Option.some.inj hs
        exact ⟨_, L, h.records hi hnot⟩
  case highWatermark i =>
    simp only [machine, h.parks.led] at hs
    split at hs
    case h_2 => contradiction
    case h_1 f st₀ hi hst =>
      cases Option.some.inj hst
      split at hs
      case isTrue => contradiction
      case isFalse hrecorded =>
        cases Option.some.inj hs
        have hcompletes : s.completes (.highWatermark i) = some f.replicaID := by rw [State.completes, hi]; rfl
        rw [hcompletes]
        exact ⟨_, L, h.answers ht (by omega) hi (by simpa using hrecorded)⟩
  case tick d =>
    cases Option.some.inj hs
    exact ⟨st, L, h.continues rfl h.parks rfl ⟨rfl, fun c hc => ⟨c, hc, .refl c⟩⟩ rfl rfl rfl⟩

end Replicating

theorem Replicating.init (p : Setup) (now : Int) :
    Replicating p 0 (.init p now) (.new p.replicas p.nodeID lagTimeout now) [] where
  parks    := {
    led         := rfl
    calls       := .new fun st hst => by cases hst; rfl
    parked      := by simp [State.init, Leading.new]
    unsatisfied := by simp [PartitionState.Unsatisfied, PartitionState.new, PartitionState.recompute]
    short       := by simp [PartitionState.Short, PartitionState.new, PartitionState.recompute]
  }
  copying  := {
    leader     := Storage.Log.empty_stores
    framed     := by simp
    length_le  := Nat.le_refl 0
    pending    := by simp [State.init, Leading.new]
    follower   := fun _ _ => ⟨[], Storage.Log.empty_stores, List.nil_prefix⟩
    offset     := fun r _ => by
      simp only [PartitionState.new, PartitionState.recompute]
      split
      all_goals exact le_refl 0
    distinct   := .nil
    round      := by simp [State.init]
    unrecorded := by simp [State.init]
  }
  replicas := rfl
  leaderID := rfl

-- The run of a partition, seen as the rounds of the followers that it completes.
def rounds (p : Setup) : Machine State Step Int where
  step s a := ((machine p).step s a).map fun r => (r.fst, (s.completes a).toList)

-- How far the follower `r` has come since it had `len` entries, by `k` rounds. The first of them may have begun before
-- the leader had its target.
structure Progress (s : State) (st : PartitionState) (r target len : Int) (k : Nat) : Prop where
  len_le  : len ≤ (s.followers r).endOffset
  reached : target ≤ (s.followers r).endOffset ∨ len + k ≤ (s.followers r).endOffset + 1
  fresh   : 0 < k → ∀ f ∈ s.fetches, f.replicaID = r → target ≤ f.endOffset
  done    : 0 < k → target + 2 ≤ len + k → target ≤ (st.followerOffset r).getD 0

theorem Progress.step {r target len : Int} {k : Nat} {completed : Option Int} (h : Progress s st r target len k)
    (htarget : target ≤ L.length) (hgoes : Goes r s st L s' st' completed) :
    Progress s' st' r target len (k + completed.toList.count r) := by
  obtain ⟨hlen, hreached, hfresh, hdone⟩ := h
  cases hgoes
  case stays hfollower hoffset hfetches hne =>
    have hcount : completed.toList.count r = 0 := by
      rw [List.count_eq_zero]
      simpa using hne
    rw [hcount, Nat.add_zero]
    refine ⟨hfollower ▸ hlen, hfollower ▸ hreached, fun hk f hf hid => ?_, hoffset ▸ hdone⟩
    cases hfetches f hf hid
    case inl hold => exact hfresh hk f hold hid
    case inr hend => exact hend ▸ htarget
  case records hfollower hoffset hfetches =>
    refine ⟨hfollower ▸ hlen, hfollower ▸ hreached, fun hk f hf hid => ?_, fun hk => ?_⟩
    · obtain ⟨g, hg, hid', hend⟩ := hfetches f hf hid
      exact hend ▸ hfresh hk g hg hid'
    · intro hle
      rw [hoffset]
      simp only [Option.toList_none, List.count_nil, Nat.add_zero] at hle
      omega
  case completes f hf hid hle hlt hoffset hnone =>
    simp only [Option.toList_some, List.count_singleton_self]
    refine ⟨hlen.trans hle, ?_, fun _ g hg hid' => absurd hid' (hnone g hg), fun _ hle' => ?_⟩
    · by_cases hk : 0 < k
      case neg => omega
      case pos =>
        have := hfresh hk f hf hid
        omega
    · rw [hoffset]
      push_cast at hle'
      omega

-- A parked call that waits for `target`, while the followers make progress.
structure Waits (p : Setup) (id : Nat) (target : Int) (len : Int → Int) (s : State) (st : PartitionState)
    (L : List Bytes) (rs : List Int) : Prop where
  target_le : target ≤ L.length
  id_lt     : id < s.leader.nextID
  call      : ∀ c ∈ s.leader.calls, c.id = id → c.response.baseOffset + 1 = target ∧
    ∀ timeoutMS, c.phase ≠ .appended timeoutMS
  progress  : ∀ r ∈ p.replicas, r ≠ p.nodeID → Progress s st r target (len r) (rs.count r)

theorem Waits.step {id : Nat} {target : Int} {len : Int → Int} {rs : List Int} {completed : Option Int}
    {L' : List Bytes} (hreplicas : ∀ r ∈ p.replicas, 0 ≤ r) (h : Waits p id target len s st L rs)
    (ha : After p n s st L s' completed st' L') : Waits p id target len s' st' L' (rs ++ completed.toList) where
  target_le := h.target_le.trans (Int.ofNat_le.mpr ha.isPrefix.length_le)
  id_lt     := h.id_lt.trans_le ha.nextID_le
  call c' hc' hid := by
    cases ha.calls c' hc'
    case inl hold =>
      obtain ⟨c, hc, hp⟩ := hold
      obtain ⟨htarget, hphase⟩ := h.call c hc (hp.id.symm.trans hid)
      exact ⟨hp.baseOffset ▸ htarget, fun t ht => hphase t (hp.appended t ht)⟩
    case inr hnew => exact absurd h.id_lt (by omega)
  progress r hr hne := by
    rw [List.count_append]
    exact (h.progress r hr hne).step h.target_le (ha.goes r (hreplicas r hr))

theorem inductive_replicating (ht : p.topicName.length < 2 ^ 15) :
    (machine p).InductiveUpTo Regular (2 ^ 63 - 1) fun n s _ => ∃ st L, Replicating p n s st L where
  step hn hinv hc hs := by
    obtain ⟨st, L, h⟩ := hinv
    obtain ⟨st', L', h'⟩ := h.step ht (by omega) hc hs
    exact ⟨st', L', h'.replicating⟩

theorem inductive_waits (ht : p.topicName.length < 2 ^ 15) (hreplicas : ∀ r ∈ p.replicas, 0 ≤ r) (id : Nat)
    (target : Int) (len : Int → Int) : (rounds p).InductiveUpTo Regular (2 ^ 63 - 1) fun n s rs =>
      ∃ st L, Replicating p n s st L ∧ Waits p id target len s st L rs where
  step hn hinv hc hs := by
    obtain ⟨st, L, h, hwaits⟩ := hinv
    obtain ⟨⟨s', o⟩, hstep, heq⟩ := Option.map_eq_some_iff.mp hs
    cases heq
    obtain ⟨st', L', h'⟩ := h.step ht (by omega) hc hstep
    exact ⟨st', L', h'.replicating, hwaits.step hreplicas h'⟩

-- However the rest is interleaved: a parked call wakes up once every follower has completed two rounds more than it
-- lacked entries.
theorem parked_released {now : Int} {as bs : List Step} {os : List Answer} {rs : List Int}
    (ht : p.topicName.length < 2 ^ 15) (hreplicas : ∀ r ∈ p.replicas, 0 ≤ r) (hlen : as.length + bs.length < 2 ^ 63)
    (hc : (machine p).Along Regular (.init p now) as) (hr : (machine p).run (.init p now) as = some (s, os))
    (hc' : (rounds p).Along Regular s bs) (hr' : (rounds p).run s bs = some (s', rs)) {c : Call} {deadline : Int}
    (hmem : c ∈ s.leader.calls) (hphase : c.phase = .waiting deadline)
    (hrounds : ∀ r ∈ p.replicas, r ≠ p.nodeID →
      0 < rs.count r ∧ c.response.baseOffset + 3 ≤ (s.followers r).endOffset + rs.count r) :
    ∀ c' ∈ s'.leader.calls, c'.id = c.id → c'.isPast := by
  obtain ⟨st, L, h⟩ := (inductive_replicating ht).run_nil ⟨_, _, .init p now⟩ (by omega) hc hr
  have hnot : ¬c.isPast := by simp [Call.isPast, hphase]
  have hwaits : Waits p c.id (c.response.baseOffset + 1) (fun r => (s.followers r).endOffset) s st L [] := by
    refine ⟨h.copying.pending c hmem hnot, h.parks.calls.id_lt c hmem, fun c' hc' hid => ?_, fun r _ _ => ?_⟩
    · rw [h.parks.calls.eq_of_id_eq hc' hmem hid, hphase]
      exact ⟨rfl, by simp⟩
    · exact ⟨le_refl _, .inr (by simp), by simp, by simp⟩
  obtain ⟨st', L', h', hwaits'⟩ := (inductive_waits ht hreplicas c.id (c.response.baseOffset + 1) _).run
    ⟨st, L, h, hwaits⟩ (by omega) hc' hr'
  intro c' hc'mem hid
  obtain ⟨htarget, happended⟩ := hwaits'.call c' hc'mem hid
  cases hphase' : c'.phase
  case appended t => exact absurd hphase' (happended t)
  case waiting d =>
    -- Somebody would still be in the way.
    obtain ⟨b, hb, hne, hlt⟩ := h'.parks.short _ (h'.parks.parked c' hc'mem d hphase')
    rw [h'.replicas] at hb
    rw [h'.leaderID] at hne
    obtain ⟨hpos, hle⟩ := hrounds b hb hne
    have hdone := (hwaits'.progress b hb hne).done
    rw [List.nil_append] at hdone
    have := hdone hpos (by omega)
    dsimp only at hlt
    omega
  case released  => simp [Call.isPast, hphase']
  case answering => simp [Call.isPast, hphase']

def sampleTrio : Setup where
  nodeID         := 1
  topicName      := [116]
  partitionIndex := 0
  replicas       := [1, 2, 3]

def parkedCall : List Step := [.produce (Batch.headerOnly (-1) (-1) 1) (-1) 0, .await 0]

def roundOf (replicaID : Int) : List Step := [.fetch replicaID, .recordFollowerFetch 0, .highWatermark 0]

-- The rounds of the followers, with one more produce in between.
def catchUp : List Step :=
  roundOf 2 ++ roundOf 3 ++ [.produce (Batch.headerOnly (-1) (-1) 1) 1 0] ++
    roundOf 2 ++ roundOf 2 ++ roundOf 3 ++ roundOf 3

theorem parked_released_trio :
    ∃ s os s' rs c, (machine sampleTrio).run (.init sampleTrio 0) parkedCall = some (s, os) ∧
      (rounds sampleTrio).run s catchUp = some (s', rs) ∧ s.leader.calls = [c] ∧ ¬c.isPast ∧
      ∀ c' ∈ s'.leader.calls, c'.id = c.id → c'.isPast := by
  let c : Call := ⟨0, Batch.headerOnly (-1) (-1) 1, -1, ⟨0, .none, 0⟩, .waiting 30000000000⟩
  have hrun : ((machine sampleTrio).run (.init sampleTrio 0) parkedCall).bind (fun r =>
      ((rounds sampleTrio).run r.fst catchUp).map fun r' => (r.fst.leader.calls, (r.fst.followers 2).endOffset,
        (r.fst.followers 3).endOffset, r'.snd, decide ((rounds sampleTrio).Along Regular r.fst catchUp))) =
      some ([c], 0, 0, [2, 3, 2, 2, 3, 3], true) := by decide +kernel
  obtain ⟨⟨s, os⟩, hr, hrounds⟩ := Option.bind_eq_some_iff.mp hrun
  obtain ⟨⟨s', rs⟩, hr', heq⟩ := Option.map_eq_some_iff.mp hrounds
  simp only [Prod.mk.injEq, decide_eq_true_eq] at heq
  obtain ⟨hcalls, htwo, hthree, rfl, hc'⟩ := heq
  have hc : (machine sampleTrio).Along Regular (.init sampleTrio 0) parkedCall := by decide +kernel
  have hmem : c ∈ s.leader.calls := by
    rw [hcalls]
    exact List.mem_singleton_self c
  refine ⟨s, os, s', _, c, hr, hr', hcalls, by decide, ?_⟩
  refine parked_released (by decide) (by decide) (by decide) hc hr hc' hr' hmem rfl fun r hr hne => ?_
  have hr : r = 2 ∨ r = 3 := by
    simp only [sampleTrio, List.mem_cons, List.not_mem_nil, or_false] at hr
    exact hr.resolve_left hne
  cases hr
  case inl heq =>
    subst heq
    exact ⟨by decide, by rw [htwo]; decide⟩
  case inr heq =>
    subst heq
    exact ⟨by decide, by rw [hthree]; decide⟩

end Acking
end Network
