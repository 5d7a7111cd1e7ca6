import Gokaf.Network.Theorems.Cluster

open Go Protocol Replication
open Following (Phase Rounds)

namespace Network.Cluster

-- The log has the batch at offset `o`.
def Holds (L : List Bytes) (batch : Bytes) (o : Int) : Prop :=
  0 ≤ o ∧ L[o.toNat]? = some (Batch.withBaseOffset batch o)

theorem Holds.mono {L L' : List Bytes} {batch : Bytes} {o : Int} (h : Holds L batch o) (hL : L <+: L') :
    Holds L' batch o := by
  have ⟨rest, hrest⟩ := hL
  have ⟨hlt, _⟩ := List.getElem?_eq_some_iff.mp h.right
  refine ⟨h.left, ?_⟩
  rw [← hrest, List.getElem?_append_left hlt]
  exact h.right

-- A part of the log that reaches behind the batch has it, too.
theorem Holds.of_isPrefix {L M : List Bytes} {batch : Bytes} {o : Int} (h : Holds L batch o) (hM : M <+: L)
    (hlt : o < M.length) : Holds M batch o := by
  have ⟨rest, hrest⟩ := hM
  have hnonneg := h.left
  refine ⟨h.left, ?_⟩
  have := h.right
  rwa [← hrest, List.getElem?_append_left (by omega)] at this

section Led

variable {r : Topic.Partition} {logs logs' : Int → List Bytes} {b now : Int} {st st' : PartitionState}
variable {ws : List Waiter} {alive : Bool} {batch : Bytes} {o : Int}

-- A broker's state as a leader: it counts all members of the ISR, none of them as further than it is.
structure Leads (r : Topic.Partition) (logs : Int → List Bytes) (b : Int) (st : PartitionState) : Prop where
  leader   : r.leader = b
  leaderID : st.leaderID = b
  lag      : 0 ≤ st.lagTimeout
  replicas : r.isr ⊆ st.replicas
  offset   : ∀ m ∈ r.isr, m ≠ b → (st.followerOffset m).getD 0 ≤ (logs m).length

namespace Leads

theorem mono (h : Leads r logs b st) (hlogs : ∀ m ∈ r.isr, logs m <+: logs' m) : Leads r logs' b st where
  leader   := h.leader
  leaderID := h.leaderID
  lag      := h.lag
  replicas := h.replicas
  offset m hm hne := (h.offset m hm hne).trans (Int.ofNat_le.mpr (hlogs m hm).length_le)

theorem of_eq (h : Leads r logs b st) (hid : st'.leaderID = st.leaderID) (hlag : st'.lagTimeout = st.lagTimeout)
    (hreplicas : st'.replicas = st.replicas) (hoffset : st'.followerOffset = st.followerOffset) :
    Leads r logs b st' where
  leader   := h.leader
  leaderID := hid.trans h.leaderID
  lag      := hlag ▸ h.lag
  replicas := hreplicas ▸ h.replicas
  offset   := hoffset ▸ h.offset

theorem recomputed (h : Leads r logs b st) (hr : PartitionState.Recomputed st now st' ws) : Leads r logs b st' :=
  h.of_eq (by rw [hr.eq]) (by rw [hr.eq]) (by rw [hr.eq]) (by rw [hr.eq])

theorem raise (h : Leads r logs b st) (target : Int) : Leads r logs b (st.raise target) := by
  unfold PartitionState.raise
  split
  case isTrue  => exact h.of_eq rfl rfl rfl rfl
  case isFalse => exact h

theorem fetched {m f e : Int} (h : Leads r logs b st) (hf : m ∈ r.isr → f ≤ (logs m).length) :
    Leads r logs b (st.fetched m f e now) where
  leader   := h.leader
  leaderID := h.leaderID
  lag      := h.lag
  replicas := h.replicas
  offset m' hm' hne := by
    simp only [PartitionState.fetched]
    by_cases heq : m' = m
    case pos =>
      subst heq
      rw [Function.update_self]
      exact hf hm'
    case neg =>
      rw [Function.update_of_ne heq]
      exact h.offset m' hm' hne

theorem new (hlead : r.leader = b) (replicas : List Int) (hr : r.isr ⊆ replicas) :
    Leads r logs b (.new replicas b lagTimeout now) where
  leader   := hlead
  leaderID := rfl
  lag      := show 0 ≤ lagTimeout by decide
  replicas := hr
  offset m hm hne := by
    have hm' : m ∈ replicas := hr hm
    simp [PartitionState.new, PartitionState.recompute, hm', hne]

-- With the whole ISR heard of in time, everything below the watermark is in all its logs.
theorem holds (h : Leads r logs b st) (hpre : ∀ m ∈ r.isr, logs m <+: logs b)
    (hisr : ∀ m ∈ r.isr, m ≠ b → st.followerInISR m now) (hb : Holds (logs b) batch o)
    (ho : o < st.watermark now) : ∀ m ∈ r.isr, Holds (logs m) batch o := by
  intro m hm
  by_cases hne : m = b
  case pos => exact hne ▸ hb
  case neg =>
    have ⟨_, hfollowers⟩ := PartitionState.le_watermark_iff.mp ho
    have hle := hfollowers m (h.replicas hm) (h.leaderID ▸ hne) (hisr m hm hne)
    have := h.offset m hm hne
    exact hb.of_isPrefix (hpre m hm) (by omega)

end Leads

-- What the calls of a broker stand for: it leads and has the batch, and once nothing keeps the call
-- from answering, the whole ISR has it.
def Pending (r : Topic.Partition) (alive : Bool) (logs : Int → List Bytes) (b : Int) (batch : Bytes) (o : Int) :
    Prop :=
  r.leader = b ∧ alive = true ∧ Holds (logs b) batch o

def Kept (r : Topic.Partition) (alive : Bool) (logs : Int → List Bytes) (b : Int) (batch : Bytes) (o : Int) :
    Prop :=
  r.leader = b ∧ alive = true ∧ ∀ m ∈ r.isr, Holds (logs m) batch o

theorem Pending.mono (h : Pending r alive logs b batch o) (hmem : r.leader ∈ r.isr)
    (hlogs : ∀ m ∈ r.isr, logs m <+: logs' m) : Pending r alive logs' b batch o :=
  ⟨h.left, h.right.left, h.right.right.mono (hlogs b (h.left ▸ hmem))⟩

theorem Kept.mono (h : Kept r alive logs b batch o) (hlogs : ∀ m ∈ r.isr, logs m <+: logs' m) :
    Kept r alive logs' b batch o :=
  ⟨h.left, h.right.left, fun m hm => (h.right.right m hm).mono (hlogs m hm)⟩

end Led

variable {p : Setup} {s s' : State} {n n' : Nat} {now : Int} {as : List Step} {os out : List Output}

-- All other members of the ISR, or `replicaID` itself if it is about to be heard of, are in time.
def State.HeardOf (s : State) (b replicaID : Int) (st : PartitionState) : Prop :=
  ∀ m ∈ s.registry.isr, m ≠ b → m = replicaID ∧ 0 ≤ replicaID ∨ st.followerInISR m s.now = true

-- The batch is at offset `o` in the log, and the leader knows that the whole ISR has it.
def State.Covered (s : State) (b : Int) (batch : Bytes) (o : Int) : Prop :=
  0 ≤ o ∧ ((s.log b).entries.toOption.getD [])[o.toNat]? = some (Batch.withBaseOffset batch o) ∧
    ∃ st ∈ (s.nodes b).leading.led, ∀ m ∈ s.registry.isr, m ≠ b → o < (st.followerOffset m).getD 0

-- Nobody in the ISR of the registry is left out when a request is acknowledged for all replicas, the rounds
-- of a broker do not overlap, and nobody in the new ISR has more entries than the broker that is made the
-- leader, or is about to.
def InStep (p : Setup) (s : State) : Step → Prop
  | .produce b batch acks _ => Framed batch ∧
      (acks = -1 → ∀ o ∈ (s.nodes b).leading.cachedOffset? p.topicName p.partition.id batch, s.Covered b batch o)
  | .await b _ => ∃ st ∈ (s.nodes b).leading.led, s.HeardOf b (-1) st
  | .fetch b _ => s.Idle b
  | .answer b i => ∀ src ∈ (s.nodes b).sources[i]?, ∀ st ∈ (s.nodes src).leading.led,
      st.waiters ≠ [] → s.HeardOf src b st
  | .consume b _ => ∀ st ∈ (s.nodes b).leading.led, st.waiters ≠ [] → s.HeardOf b (-1) st
  | .peerDown deadID live => ∀ r ∈ reassign (· ∈ live) deadID s.registry,
      ∀ m ∈ r.isr, s.reach m ≤ (s.log r.leader).endOffset
  | .restart .. => False
  | .expire .. | .finish .. | .append .. | .abandon .. | .exit .. | .tick _ | .crash _ | .upsert _
  | .startFollowing _ => True

instance (b replicaID : Int) (st : PartitionState) : Decidable (s.HeardOf b replicaID st) :=
  inferInstanceAs (Decidable (∀ m ∈ s.registry.isr, _))

instance (b : Int) (batch : Bytes) (o : Int) : Decidable (s.Covered b batch o) :=
  inferInstanceAs (Decidable (_ ∧ _ ∧ _))

instance (p : Setup) (s : State) : DecidablePred (InStep p s) := fun a => by
  induction a using Step.casesOn <;> dsimp only [InStep] <;> infer_instance

-- A broker asks the leader, or one that is down.
def State.MayAsk (s : State) (b src : Int) : Prop :=
  src ≠ b ∧ (src = s.registry.leader ∨ (s.nodes src).alive = false)

-- What a member of the ISR has is a part of what the leader has, and what was acknowledged for all
-- replicas is in all the logs of the ISR. Only the leader of the registry believes to be the leader.
structure Replicated (n : Nat) (s : State) (os : List Output) (logs : Int → List Bytes) : Prop extends
    s.Copies s.registry.isr s.registry.leader n logs where
  leader_mem : s.registry.leader ∈ s.registry.isr
  view       : ∀ b, (s.nodes b).view.leader = s.registry.leader ∨
    (s.nodes (s.nodes b).view.leader).alive = false
  sources    : ∀ b, ∀ src ∈ (s.nodes b).sources, s.MayAsk b src
  leads      : ∀ b, (s.nodes b).alive = true → (s.nodes b).view.leader = b →
    s.registry.leader = b ∧ (s.nodes b).view.isr = s.registry.isr
  led        : ∀ b st, (s.nodes b).leading.led = some st →
    (s.nodes b).alive = true ∧ Leads s.registry logs b st
  calls      : ∀ b, (s.nodes b).leading.Inv (Pending s.registry (s.nodes b).alive logs b)
    (Kept s.registry (s.nodes b).alive logs b)
  acked      : ∀ c, .produced c ∈ os → c.isAcksAll →
    ∀ m ∈ s.registry.isr, Holds (logs m) c.batch c.response.baseOffset

namespace Replicated

variable {logs : Int → List Bytes} {b : Int} {i : Nat} {node : Node} {phase : Phase}

-- One broker changes, and its log only grows. No broker comes back.
theorem setNode {M : List Bytes} (h : Replicated n s os logs) (hn : n ≤ n')
    (hstores : b ∈ s.registry.isr → node.leading.log.Stores M) (hgrow : logs b <+: M)
    (hother : b ∈ s.registry.isr → b ≠ s.registry.leader → M <+: logs s.registry.leader)
    (hleader : b = s.registry.leader → (∀ e ∈ M, Framed e ∧ e.length < 2 ^ 31) ∧ M.length ≤ n')
    (hrounds : b ∈ s.registry.isr → Rounds (Sound s.registry.leader (Function.update logs b M) b) node.phases)
    (halive : node.alive = true → (s.nodes b).alive = true)
    (hview : node.view.leader = s.registry.leader ∨ (s.nodes node.view.leader).alive = false)
    (hsources : ∀ src ∈ node.sources, s.MayAsk b src)
    (hleads : node.alive = true → node.view.leader = b →
      s.registry.leader = b ∧ node.view.isr = s.registry.isr)
    (hled : ∀ st, node.leading.led = some st →
      node.alive = true ∧ Leads s.registry (Function.update logs b M) b st)
    (hcalls : node.leading.Inv (Pending s.registry node.alive (Function.update logs b M) b)
      (Kept s.registry node.alive (Function.update logs b M) b))
    (hacked : ∀ c, .produced c ∈ out → c.isAcksAll →
      ∀ m ∈ s.registry.isr, Holds (Function.update logs b M m) c.batch c.response.baseOffset) :
    Replicated n' (s.setNode b node) (os ++ out) (Function.update logs b M) := by
  have hgrows : ∀ m ∈ s.registry.isr, logs m <+: Function.update logs b M m := fun m _ => isPrefix_update hgrow m
  have hcopies := h.toCopies.setNode hn hstores hother (fun hb => ⟨hgrow, hleader hb⟩) hrounds
  have hdead : ∀ m, (s.nodes m).alive = false → ((s.setNode b node).nodes m).alive = false := by
    intro m hm
    by_cases hmb : m = b
    case pos =>
      subst hmb
      simpa [hm] using halive
    case neg => simpa [hmb] using hm
  refine ⟨hcopies, h.leader_mem, fun m => ?_, fun m src hsrc => ?_, fun m ha hv => ?_, fun m st hst => ?_,
    fun m => ?_, fun c hc ha m hm => ?_⟩
  rotate_right
  · cases List.mem_append.mp hc
    case inl hc => exact (h.acked c hc ha m hm).mono (hgrows m hm)
    case inr hc => exact hacked c hc ha m hm
  all_goals by_cases hmb : m = b
  case pos =>
    subst hmb
    have hn : (s.setNode m node).nodes m = node := by simp
    rw [hn]
    exact hview.imp_right (hdead _)
  case neg =>
    have hn : (s.setNode b node).nodes m = s.nodes m := by simp [hmb]
    rw [hn]
    exact (h.view m).imp_right (hdead _)
  case pos =>
    subst hmb
    exact (hsources src (by simpa using hsrc)).imp_right (Or.imp_right (hdead _))
  case neg => exact (h.sources m src (by simpa [hmb] using hsrc)).imp_right (Or.imp_right (hdead _))
  case pos =>
    subst hmb
    simp only [State.nodes_setNode, if_true] at ha hv ⊢
    exact hleads ha hv
  case neg =>
    simp only [State.nodes_setNode, hmb, if_false] at ha hv ⊢
    exact h.leads m ha hv
  case pos =>
    subst hmb
    simp only [State.nodes_setNode, if_true] at hst ⊢
    exact hled st hst
  case neg =>
    simp only [State.nodes_setNode, hmb, if_false] at hst ⊢
    exact (h.led m st hst).imp_right fun hl => hl.mono hgrows
  case pos =>
    subst hmb
    simp only [State.nodes_setNode, if_true]
    exact hcalls
  case neg =>
    simp only [State.nodes_setNode, hmb, if_false]
    exact (h.calls m).mono (fun _ _ hp => hp.mono h.leader_mem hgrows) (fun _ _ hk => hk.mono hgrows)

-- A broker changes, but not its log.
theorem setNode_log (h : Replicated n s os logs) (hn : n ≤ n') (hlog : node.leading.log = s.log b)
    (hrounds : b ∈ s.registry.isr → Rounds (Sound s.registry.leader logs b) node.phases)
    (halive : node.alive = true → (s.nodes b).alive = true)
    (hview : node.view.leader = s.registry.leader ∨ (s.nodes node.view.leader).alive = false)
    (hsources : ∀ src ∈ node.sources, s.MayAsk b src)
    (hleads : node.alive = true → node.view.leader = b →
      s.registry.leader = b ∧ node.view.isr = s.registry.isr)
    (hled : ∀ st, node.leading.led = some st → node.alive = true ∧ Leads s.registry logs b st)
    (hcalls : node.leading.Inv (Pending s.registry node.alive logs b) (Kept s.registry node.alive logs b))
    (hacked : ∀ c, .produced c ∈ out → c.isAcksAll →
      ∀ m ∈ s.registry.isr, Holds (logs m) c.batch c.response.baseOffset) :
    Replicated n' (s.setNode b node) (os ++ out) logs := by
  have heq : Function.update logs b (logs b) = logs := Function.update_eq_self ..
  rw [← heq] at hrounds hled hcalls hacked ⊢
  exact h.setNode hn (fun hb => hlog ▸ h.stores b hb) List.prefix_rfl (fun hb _ => h.isPrefix b hb)
    (fun hb => ⟨hb ▸ h.framed, hb ▸ h.length_le.trans hn⟩) hrounds halive hview hsources hleads hled hcalls hacked

-- Only the leading part of a broker changes, and not its log.
theorem setLeading {leading : Leading} (h : Replicated n s os logs) (hn : n ≤ n') (hlog : leading.log = s.log b)
    (hled : ∀ st, leading.led = some st → (s.nodes b).alive = true ∧ Leads s.registry logs b st)
    (hcalls : leading.Inv (Pending s.registry (s.nodes b).alive logs b) (Kept s.registry (s.nodes b).alive logs b))
    (hacked : ∀ c, .produced c ∈ out → c.isAcksAll →
      ∀ m ∈ s.registry.isr, Holds (logs m) c.batch c.response.baseOffset) :
    Replicated n' (s.setNode b { s.nodes b with leading }) (os ++ out) logs :=
  h.setNode_log hn hlog (h.rounds b) id (h.view b) (h.sources b) (h.leads b) hled hcalls hacked

-- A fetcher of a broker takes a step that leaves its log alone.
theorem setPhase (h : Replicated n s os logs) (hn : n ≤ n')
    (hrounds : b ∈ s.registry.isr → Rounds (Sound s.registry.leader logs b) ((s.nodes b).phases.set i phase))
    (hout : ∀ c, .produced c ∉ out) :
    Replicated n' (s.setNode b ((s.nodes b).setPhase i phase)) (os ++ out) logs := by
  refine h.setNode_log hn rfl (fun hb => ?_) id (h.view b) ?_ (h.leads b) (h.led b) (h.calls b)
    fun c hc => absurd hc (hout c)
  · rw [Node.phases_setPhase]
    exact hrounds hb
  · rw [Node.sources_setPhase]
    exact h.sources b

-- With the ISR heard of in time, a call below the watermark may answer.
theorem kept {st : PartitionState} {batch : Bytes} {o : Int} (h : Replicated n s os logs)
    (hl : Leads s.registry logs b st) (hisr : ∀ m ∈ s.registry.isr, m ≠ b → st.followerInISR m s.now)
    (hp : Pending s.registry (s.nodes b).alive logs b batch o) (ho : o < st.watermark s.now) :
    Kept s.registry (s.nodes b).alive logs b batch o :=
  ⟨hp.left, hp.right.left, hl.holds (hp.left ▸ h.isPrefix) hisr hp.right.right ho⟩

theorem await {id : Nat} {leading : Leading} (h : Replicated n s os logs) (hc : InStep p s (.await b id))
    (hs : (s.nodes b).leading.await id s.now = some leading) :
    Replicated (n + 1) (s.setNode b { s.nodes b with leading }) (os ++ []) logs := by
  have ⟨st, hst, hheard⟩ := hc
  have ⟨halive, hleads⟩ := h.led b st hst
  have ⟨c, _, s', ws, st', hr, hlog, hled, heq, hinv⟩ := (h.calls b).await hst hs
  have hraised := hleads.raise (c.response.baseOffset + 1)
  refine h.setLeading (Nat.le_succ n) hlog (fun st'' hst'' => ⟨halive, ?_⟩) ?_ (by simp)
  · cases hled.symm.trans hst''
    rw [heq]
    exact (hraised.recomputed hr).of_eq rfl rfl rfl rfl
  · refine hinv _ (fun _ _ hk => hk) fun batch o hp ho => h.kept hraised (fun m hm hne => ?_) hp ?_
    · have hin := (hheard m hm hne).resolve_left (by omega)
      rwa [PartitionState.followerInISR_raise]
    · rwa [hr.highWatermark] at ho

theorem recordFetch {replicaID f : Int} (h : Replicated n s os logs) (hn : n ≤ n')
    (hf : 0 ≤ replicaID → replicaID ∈ s.registry.isr → f ≤ (logs replicaID).length)
    (hc : ∀ st ∈ (s.nodes b).leading.led, st.waiters ≠ [] → s.HeardOf b replicaID st) (e : Int) :
    let r := Network.recordFetch (s.nodes b).leading.led replicaID f e s.now
    Replicated n' (s.setNode b { s.nodes b with leading := (s.nodes b).leading.recorded r.fst r.snd.fst })
      (os ++ []) logs := by
  intro r
  cases hled : (s.nodes b).leading.led
  case none =>
    have heq : (s.nodes b).leading.recorded r.fst r.snd.fst = (s.nodes b).leading := by
      simp only [r, hled, Network.recordFetch]
      exact Leading.recorded_none hled
    rw [heq]
    exact h.setLeading hn rfl (h.led b) (h.calls b) (by simp)
  case some st =>
    obtain ⟨halive, hleads⟩ := h.led b st hled
    obtain ⟨st', ws, hrecord, hr⟩ := recordFetch_recomputed st replicaID f e s.now
    have hrst : r = (some st', ws, st'.highWatermark) := by simp only [r, hled, hrecord]
    rw [hrst]
    generalize ht : (if 0 ≤ replicaID then st.fetched replicaID f e s.now else
      { st with leaderEndOffset := e }) = t at hr
    have hwaiters : t.waiters = st.waiters := by
      subst ht
      split <;> rfl
    have ht' : Leads s.registry logs b t := by
      subst ht
      split
      case isTrue hnonneg => exact hleads.fetched (hf hnonneg)
      case isFalse        => exact hleads.of_eq rfl rfl rfl rfl
    refine h.setLeading hn rfl (fun st'' hst'' => ⟨halive, ?_⟩) ?_ (by simp)
    · cases hst''
      exact ht'.recomputed hr
    · refine (h.calls b).recorded hled (fun w hw => .inl (hwaiters ▸ hr.kept w hw))
        (fun w hw => hwaiters ▸ hr.released w hw) (fun _ _ hk => hk) (fun hne batch o hp ho => ?_)
      obtain ⟨w, hw⟩ := List.exists_mem_of_ne_nil ws hne
      have hheard := hc st hled (List.ne_nil_of_mem (hwaiters ▸ (hr.released w hw).left))
      refine h.kept ht' (fun m hm hmb => ?_) hp (by rwa [hr.highWatermark] at ho)
      rw [← ht]
      split
      case isTrue => exact (PartitionState.followerInISR_fetched hleads.lag).mpr ((hheard m hm hmb).imp_left And.left)
      case isFalse hneg => exact (hheard m hm hmb).resolve_left fun heq => hneg heq.right

theorem produce {batch : Bytes} {acks timeoutMS : Int} (h : Replicated n s os logs) (hn : n + 1 < 2 ^ 63)
    (halive : (s.nodes b).alive = true) (hb : batch.length < 2 ^ 31)
    (hc : InStep p s (.produce b batch acks timeoutMS)) :
    ∃ logs', Replicated (n + 1) (s.setNode b { s.nodes b with
      leading := (s.nodes b).leading.produce b (some (s.nodes b).view.leader) p.topicName p.partition.id batch acks
        timeoutMS }) (os ++ []) logs' := by
  by_cases hv : (s.nodes b).view.leader = b
  case neg =>
    have hp := Leading.producePartition_of_ne (l := (s.nodes b).leading) hv p.topicName p.partition.id batch
    refine ⟨logs, h.setLeading (Nat.le_succ n) (Leading.log_produce_of_ne hv ..) ?_ ?_ (by simp)⟩
    · simp only [Leading.produce, hp]
      exact h.led b
    · refine (h.calls b).produce hp (fun _ hnone => ?_) (fun _ r hr hnone => ?_)
      · simp [Produced.response] at hnone
      · cases hr
        simp at hnone
  case pos =>
    obtain ⟨hlead, _⟩ := h.leads b halive hv
    have hmem : b ∈ s.registry.isr := hlead ▸ h.leader_mem
    have hstores := h.stores b hmem
    have hle := h.length_le
    rw [hlead] at hle
    have hb' : batch.length < 2 ^ 32 := by omega
    obtain ⟨producers, log, produced, hp, hcases⟩ := Leading.producePartition_cases hstores b
      (some (s.nodes b).view.leader) p.topicName p.partition.id hb' (by omega)
    have hled : ((s.nodes b).leading.produce b (some (s.nodes b).view.leader) p.topicName p.partition.id batch acks
        timeoutMS).led = (s.nodes b).leading.led := by
      simp only [Leading.produce, hp]
    have hlog : ((s.nodes b).leading.produce b (some (s.nodes b).view.leader) p.topicName p.partition.id batch acks
        timeoutMS).log = log := by
      simp only [Leading.produce, hp]
    cases hcases
    case inl hcopy =>
      obtain ⟨hsame, r, hr, hdup⟩ := hcopy
      cases hr
      -- A copy is acknowledged at once, but the whole ISR has the batch already.
      have hkept : acks = -1 → r.errorCode = .none →
          Kept s.registry (s.nodes b).alive logs b batch r.baseOffset := by
        intro hacks hnone
        obtain ⟨hnonneg, hentry, st, hst, hoffsets⟩ := hc.right hacks _ (hdup hnone).right
        rw [hstores.refines.entries] at hentry
        have hholds : Holds (logs b) batch r.baseOffset := ⟨hnonneg, hentry⟩
        refine ⟨hlead, halive, fun m hm => ?_⟩
        by_cases hne : m = b
        case pos => exact hne ▸ hholds
        case neg =>
          have := (h.led b st hst).right.offset m hm hne
          have := hoffsets m hm hne
          exact hholds.of_isPrefix (hlead ▸ h.isPrefix m hm) (by omega)
      refine ⟨logs, h.setLeading (Nat.le_succ n) (hlog.trans hsame) (hled ▸ h.led b) ?_ (by simp)⟩
      refine (h.calls b).produce hp (fun hacks hnone => ?_) (fun hacks r' hr' hnone => ?_)
      · obtain ⟨hlead, halive, hall⟩ := hkept hacks hnone
        exact ⟨hlead, halive, hall b hmem⟩
      · cases hr'
        exact hkept hacks hnone
    case inr happ =>
      obtain ⟨_, hstores', hproduced⟩ := happ
      subst hproduced
      have hsame := Batch.sameBatch_withBaseOffset batch (logs b).length
      have hframed : ∀ e ∈ logs b ++ [Batch.withBaseOffset batch (logs b).length], Framed e ∧ e.length < 2 ^ 31 :=
        List.forall_mem_append.mpr ⟨hlead ▸ h.framed,
          List.forall_mem_singleton.mpr ⟨hsame.framed hc.left, hsame.length ▸ hb⟩⟩
      have hgrow := List.prefix_append (logs b) [Batch.withBaseOffset batch (logs b).length]
      have hgrows := fun m (_ : m ∈ s.registry.isr) => isPrefix_update hgrow m
      refine ⟨_, h.setNode (Nat.le_succ n) (fun _ => hlog ▸ hstores') hgrow
        (fun _ hne => absurd hlead.symm hne) (fun _ => ⟨hframed, by simpa using hle⟩) (fun _ => ?_) id (h.view b)
        (h.sources b) (h.leads b) (fun st hst => ?_) ?_ (by simp)⟩
      · have hrounds := h.rounds b hmem
        rw [hlead] at hrounds ⊢
        exact hrounds.mono fun _ _ hs => hs.of_leader
      · exact (h.led b st (hled ▸ hst)).imp_right fun hl => hl.mono hgrows
      · refine ((h.calls b).mono (fun _ _ hp => hp.mono h.leader_mem hgrows) (fun _ _ hk => hk.mono hgrows)).produce hp
          (fun _ _ => ⟨hlead, halive, ?_⟩) (fun _ r hr _ => by cases hr)
        rw [Function.update_self]
        exact ⟨Int.natCast_nonneg _, by simp [Produced.response]⟩

-- A source that is up is the leader, and the request of a member of the ISR is at the end of its log.
theorem answer {src fetchOffset : Int} {cancelled : Bool} {response : FetchPartitionResponse}
    (h : Replicated n s os logs) (hf : (s.nodes b).fetchers[i]? = some ⟨src, cancelled, .fetching fetchOffset⟩)
    (hne : src ≠ b) (hsrc : src = s.registry.leader) (hc : InStep p s (.answer b i))
    (hr : Answers (logs src) fetchOffset response) (hout : ∀ c, .produced c ∉ out) :
    let r := Network.recordFetch (s.nodes src).leading.led b fetchOffset (logs src).length s.now
    let batches := batchesOf (writeFetchResponse [⟨p.topicName, [response]⟩])
    let s₁ := s.setNode src { s.nodes src with leading := (s.nodes src).leading.recorded r.fst r.snd.fst }
    Replicated (n + 1) (s₁.setNode b ((s₁.nodes b).setPhase i (.ofBatches batches))) (os ++ out) logs := by
  intro r batches s₁
  have hp := Node.phases_getElem? hf
  have hsource : (s.nodes b).sources[i]? = some src := by
    rw [Node.sources, List.getElem?_map, hf]
    rfl
  have hend : b ∈ s.registry.isr → fetchOffset = (logs b).length := fun hb =>
    (h.rounds b hb i _ hp rfl).left (hsrc ▸ hne.symm)
  have h₁ : Replicated n s₁ os logs := by
    simpa using h.recordFetch le_rfl (fun _ hb => (hend hb).le) (hc src hsource) (logs src).length
  have hnode : s₁.nodes b = s.nodes b := by simp [s₁, hne.symm]
  refine h₁.setPhase (Nat.le_succ n) (fun hb => ?_) hout
  have hoffset := hend hb
  subst hoffset
  exact h₁.toCopies.answer hb (hsrc ▸ h.leader_mem) p.short (hnode ▸ hp) hr

-- Only what a member of the ISR appends matters.
theorem append {src : Int} {cancelled : Bool} {batch : Bytes} {batches : List Bytes} {log : Storage.Log}
    {result : Except IOError Int} (h : Replicated n s os logs) (hn : n < 2 ^ 63)
    (hf : (s.nodes b).fetchers[i]? = some ⟨src, cancelled, .appending (batch :: batches)⟩)
    (happend : (s.log b).append batch = (log, result))
    (hphase : ∀ o, result = .ok o → phase = .ofBatches batches) :
    ∃ logs', Replicated (n + 1) (s.setNode b (Node.setPhase { s.nodes b with
      leading := { (s.nodes b).leading with log } } i phase)) (os ++ []) logs' := by
  obtain ⟨M, hstores, hpre, hgrow, hlead, hrounds⟩ : ∃ M, (b ∈ s.registry.isr → log.Stores M) ∧
      (b ∈ s.registry.isr → M <+: logs s.registry.leader) ∧ logs b <+: M ∧
        (b ∈ s.registry.isr → b ≠ s.registry.leader) ∧
      (b ∈ s.registry.isr →
        Rounds (Sound s.registry.leader (Function.update logs b M) b) ((s.nodes b).phases.set i phase)) := by
    by_cases hb : b ∈ s.registry.isr
    case neg =>
      exact ⟨logs b, fun hb' => absurd hb' hb, fun hb' => absurd hb' hb, List.prefix_rfl, fun hb' => absurd hb' hb,
        fun hb' => absurd hb' hb⟩
    case pos =>
      obtain ⟨hne, l, happend', hstores, hpre, hrounds⟩ := h.toCopies.append hn hb (Node.phases_getElem? hf)
      cases happend.symm.trans happend'
      rw [hphase _ rfl]
      exact ⟨_, fun _ => hstores, fun _ => hpre, List.prefix_append _ _, fun _ => hne, fun _ => hrounds⟩
  have hne : b ≠ s.registry.leader := fun heq => hlead (heq ▸ h.leader_mem) heq
  have hgrows := fun m (_ : m ∈ s.registry.isr) => isPrefix_update hgrow m
  refine ⟨_, h.setNode (Nat.le_succ n) hstores hgrow (fun hb _ => hpre hb) (fun heq => absurd heq hne) (fun hb => ?_) id
    (h.view b) ?_ (h.leads b) (fun st hst => ?_) ?_ (by simp)⟩
  · rw [Node.phases_setPhase]
    exact hrounds hb
  · rw [Node.sources_setPhase]
    exact h.sources b
  · exact absurd (h.led b st hst).right.leader hne.symm
  · have hcalls := (h.calls b).mono (fun _ _ hp => hp.mono h.leader_mem hgrows) (fun _ _ hk => hk.mono hgrows)
    exact ⟨hcalls.ids, hcalls.id_lt, hcalls.waiter, hcalls.all, hcalls.past⟩

theorem peerDown {deadID : Int} {live : List Int} (h : Replicated n s os logs)
    (hdead : (s.nodes deadID).alive = false) (hc : InStep p s (.peerDown deadID live)) :
    Replicated (n + 1) { s with registry := (reassign (· ∈ live) deadID s.registry).getD s.registry } os logs := by
  cases hr : reassign (· ∈ live) deadID s.registry
  case none => exact { h with toCopies := h.toCopies.le (Nat.le_succ n) }
  case some r =>
    obtain ⟨hlead, hmem, hsub, hdeadID, _⟩ := reassign_eq_some hr
    have hnot : ∀ b, (s.nodes b).alive = true → s.registry.leader ≠ b := by
      rintro b ha rfl
      rw [hlead, hdead] at ha
      contradiction
    have hdown : ∀ m, m = s.registry.leader ∨ (s.nodes m).alive = false → (s.nodes m).alive = false :=
      fun m hm => hm.elim (fun heq => heq ▸ hlead ▸ hdead) id
    have hcopies := h.toCopies.reassign (hsub hmem) hsub (fun hold => absurd (hlead ▸ hold) hdeadID) (hc r hr) r
    rw [Option.getD_some]
    refine ⟨hcopies.le (Nat.le_succ n), hmem, fun b => .inr (hdown _ (h.view b)),
      fun b src hsrc => (h.sources b src hsrc).imp_right fun hask => .inr (hdown src hask),
      fun b ha hv => absurd (h.leads b ha hv).left (hnot b ha), fun b st hst => ?_, fun b => ?_,
      fun c hc ha m hm => h.acked c hc ha m (hsub hm)⟩
    · have ⟨ha, hl⟩ := h.led b st hst
      exact absurd hl.leader (hnot b ha)
    · exact (h.calls b).mono (fun _ _ hp => absurd hp.left (hnot b hp.right.left))
        (fun _ _ hk => absurd hk.left (hnot b hk.right.left))

theorem startFollowing (h : Replicated n s os logs) (halive : (s.nodes b).alive = true) :
    Replicated (n + 1) (s.setNode b ((s.nodes b).startFollowing b s.now)) (os ++ []) logs := by
  have hled : ∀ st, ((s.nodes b).startFollowing b s.now).leading.led = some st →
      (s.nodes b).leading.led = some st ∨ Leads s.registry logs b st ∧ st.waiters = [] := by
    intro st hst
    refine (Node.led_startFollowing hst).imp_right fun hnew => ?_
    have ⟨hv, heq⟩ := hnew
    have ⟨hlead, hisr⟩ := h.leads b halive hv
    have hne : s.registry.isr ≠ [] := List.ne_nil_of_mem h.leader_mem
    rw [hisr, if_neg hne] at heq
    subst heq
    exact ⟨.new hlead _ (List.Subset.refl _), rfl⟩
  refine h.setNode_log (Nat.le_succ n) rfl (fun hb => Node.rounds_startFollowing (h.rounds b hb)) id (h.view b)
    (fun src hsrc => ?_) (h.leads b) (fun st hst => ⟨halive, ?_⟩) ((h.calls b).setLed fun st hst => ?_) (by simp)
  · obtain hold | ⟨_, heq, hne⟩ := Node.mem_sources_startFollowing hsrc
    case inl => exact h.sources b src hold
    case inr => exact ⟨hne, heq ▸ h.view b⟩
  · exact (hled st hst).elim (fun hold => (h.led b st hold).right) And.left
  · exact (hled st hst).imp_right And.right

theorem crash (h : Replicated n s os logs) :
    Replicated (n + 1) (s.setNode b (s.nodes b).crash) (os ++ []) logs := by
  have hcalls : Leading.Inv (Pending s.registry false logs b) (Kept s.registry false logs b) (.new none) :=
    .new (by simp)
  refine h.setNode_log (Nat.le_succ n) rfl (fun _ => .nil) (fun ha => ?_) (h.view b) (fun src hsrc => ?_) (fun ha => ?_)
    (fun st hst => ?_) ⟨hcalls.ids, hcalls.id_lt, hcalls.waiter, hcalls.all, hcalls.past⟩ (by simp)
  all_goals contradiction

theorem quiet (h : Replicated n s os logs) (hregistry : s'.registry = s.registry) (hnodes : s'.nodes = s.nodes) :
    Replicated (n + 1) s' (os ++ []) logs := by
  have ⟨now, registry, nodes⟩ := s'
  cases hregistry
  cases hnodes
  rw [List.append_nil]
  have hcopies := h.toCopies.le (Nat.le_succ n)
  exact ⟨⟨hcopies.stores, hcopies.isPrefix, hcopies.framed, hcopies.length_le, hcopies.rounds⟩, h.leader_mem, h.view,
    h.sources, h.leads, h.led, h.calls, h.acked⟩

end Replicated

-- One step: what was acknowledged for all replicas stays in all the logs of the ISR.
theorem inductive_replicated (p : Setup) :
    (machine p).InductiveUpTo (InStep p) (2 ^ 63 - 1) fun n s os => ∃ logs, Replicated n s os logs where
  step {n s a s' o os} hn hinv hc hs := by
    obtain ⟨logs, h⟩ := hinv
    cases a
    case produce b batch acks timeoutMS =>
      simp only [machine] at hs
      split at hs
      case isFalse => contradiction
      case isTrue hcond =>
        cases Option.some.inj hs
        exact h.produce (by omega) hcond.left hcond.right hc
    case await b id =>
      obtain ⟨leading, hawait, heq⟩ := Option.map_eq_some_iff.mp hs
      cases heq
      exact ⟨logs, h.await hc hawait⟩
    case expire b id =>
      obtain ⟨leading, hexpire, heq⟩ := Option.map_eq_some_iff.mp hs
      cases heq
      obtain ⟨hcalls, hlog, hled⟩ := (h.calls b).expire hexpire
      refine ⟨logs, h.setLeading (Nat.le_succ n) hlog (fun st' hst' => ?_) hcalls (by simp)⟩
      obtain ⟨st, hst, heq⟩ := Option.map_eq_some_iff.mp (hled ▸ hst')
      subst heq
      exact (h.led b st hst).imp_right fun hl => hl.of_eq rfl rfl rfl rfl
    case finish b id =>
      obtain ⟨⟨leading, c⟩, hfinish, heq⟩ := Option.map_eq_some_iff.mp hs
      cases heq
      obtain ⟨hcalls, hlog, hled, hpast⟩ := (h.calls b).finish hfinish
      refine ⟨logs, h.setLeading (Nat.le_succ n) hlog (hled ▸ h.led b) hcalls (fun c' hc' ha => ?_)⟩
      cases List.mem_singleton.mp hc'
      exact (hpast ha).right.right
    case fetch b i =>
      simp only [machine] at hs
      split at hs
      case h_2 => contradiction
      case h_1 =>
        cases Option.some.inj hs
        exact ⟨logs, h.setPhase (Nat.le_succ n) (fun hb => h.toCopies.fetch hb hc) (by simp)⟩
    case answer b i =>
      simp only [machine] at hs
      split at hs
      case h_2 => contradiction
      case h_1 src cancelled fetchOffset hf =>
        split at hs
        case isFalse => contradiction
        case isTrue halive =>
          obtain ⟨hne, hask⟩ := h.sources b src (List.mem_map_of_mem (List.mem_of_getElem? hf))
          have hlead : src = s.registry.leader := hask.resolve_right (by simp [halive])
          obtain ⟨response, hr, hfetch⟩ := fetchPartition_answers (h.stores src (hlead ▸ h.leader_mem))
            (s.nodes src).leading.led b p.partition.id fetchOffset fetchMaxBytes s.now
          simp only [State.log] at hfetch
          rw [hfetch] at hs
          cases Option.some.inj hs
          exact ⟨logs, h.answer hf hne hlead hc hr (by simp)⟩
    case append b i =>
      simp only [machine] at hs
      split at hs
      case h_2 => contradiction
      case h_1 src cancelled batch batches hf =>
        split at hs
        case h_1 log o happend =>
          cases Option.some.inj hs
          exact h.append (by omega) hf happend fun _ _ => rfl
        case h_2 log e happend =>
          cases Option.some.inj hs
          exact h.append (by omega) hf happend fun _ hok => by cases hok
    case abandon b i =>
      simp only [machine] at hs
      split at hs
      case h_3 => contradiction
      all_goals
        cases Option.some.inj hs
        exact ⟨logs, h.setPhase (Nat.le_succ n) (fun hb => (h.rounds b hb).set_idle rfl) (by simp)⟩
    case exit b i =>
      simp only [machine] at hs
      split at hs
      case h_2 => contradiction
      case h_1 =>
        cases Option.some.inj hs
        exact ⟨logs, h.setPhase (Nat.le_succ n) (fun hb => (h.rounds b hb).set_idle rfl) (by simp)⟩
    case consume b offset =>
      simp only [machine] at hs
      split at hs
      case isFalse => contradiction
      case isTrue =>
        cases Option.some.inj hs
        exact ⟨logs, h.recordFetch (f := offset) (Nat.le_succ n) (by omega) hc _⟩
    case tick d =>
      cases Option.some.inj hs
      exact ⟨logs, h.quiet rfl rfl⟩
    case crash b =>
      cases Option.some.inj hs
      exact ⟨logs, h.crash⟩
    case peerDown deadID live =>
      simp only [machine] at hs
      split at hs
      case isTrue => contradiction
      case isFalse hdead =>
        cases Option.some.inj hs
        rw [List.append_nil]
        exact ⟨logs, h.peerDown (by simpa using hdead) hc⟩
    case upsert b =>
      simp only [machine] at hs
      split at hs
      case isFalse => contradiction
      case isTrue =>
        cases Option.some.inj hs
        exact ⟨logs, h.setNode_log (Nat.le_succ n) rfl (h.rounds b) id (.inl rfl) (h.sources b) (fun _ hv => ⟨hv, rfl⟩)
          (h.led b) (h.calls b) (by simp)⟩
    case startFollowing b =>
      simp only [machine] at hs
      split at hs
      case isFalse => contradiction
      case isTrue halive =>
        cases Option.some.inj hs
        exact ⟨logs, h.startFollowing halive⟩
    case restart => exact hc.elim

theorem replicated_init (p : Setup) (now : Int) : Replicated 0 (.init p now) [] fun _ => [] where
  stores _ _   := Storage.Log.empty_stores
  isPrefix _ _ := List.prefix_rfl
  framed       := by simp
  length_le    := le_rfl
  rounds _ _   := Node.rounds_startFollowing .nil
  leader_mem   := p.leader_mem
  view _       := .inl rfl
  sources b src hsrc := by
    obtain ⟨_, heq, hne⟩ := (Node.mem_sources_startFollowing hsrc).resolve_left (by simp [Node.sources])
    exact ⟨hne, .inl heq⟩
  leads _ _ hv := ⟨hv, rfl⟩
  led b st hst := by
    obtain ⟨hlead, heq⟩ := (Node.led_startFollowing hst).resolve_left (by simp [Leading.new])
    have hne : p.partition.isr ≠ [] := List.ne_nil_of_mem p.leader_mem
    subst heq
    refine ⟨rfl, .new hlead _ ?_⟩
    simp only [hne, if_false]
    exact List.Subset.refl _
  calls b := by
    have hcalls : Leading.Inv (Pending p.partition true (fun _ => []) b) (Kept p.partition true (fun _ => []) b)
        (.new none) := .new (by simp)
    refine hcalls.setLed fun st hst => ?_
    obtain ⟨_, heq⟩ := (Node.led_startFollowing hst).resolve_left (by simp [Leading.new])
    exact .inr (heq ▸ rfl)
  acked := by simp

-- The broker's log has the batch at offset `o`.
def State.Has (s : State) (b : Int) (batch : Bytes) (o : Int) : Prop :=
  ∃ L, (s.log b).Refines L ∧ Holds L batch o

-- Whoever is made the leader next has every batch that was acknowledged for all replicas.
def Survives (p : Setup) (s : State) (os : List Output) : Prop :=
  ∀ deadID live s' o, (machine p).step s (.peerDown deadID live) = some (s', o) →
    s'.registry.leader ≠ s.registry.leader → ∀ c, .produced c ∈ os → c.acks = -1 → c.response.errorCode = .none →
      s'.Has s'.registry.leader c.batch c.response.baseOffset

theorem Replicated.survives {logs : Int → List Bytes} (h : Replicated n s os logs) : Survives p s os := by
  intro deadID live s' o hs hnew c hc hacks hnone
  simp only [machine] at hs
  split at hs
  case isTrue => contradiction
  case isFalse =>
    cases Option.some.inj hs
    cases hr : reassign (· ∈ live) deadID s.registry
    case none => simp [hr] at hnew
    case some r =>
      obtain ⟨_, hmem, hsub, _, _⟩ := reassign_eq_some hr
      have ha : c.isAcksAll := by simp [Call.isAcksAll, hacks, hnone]
      exact ⟨logs r.leader, (h.stores _ (hsub hmem)).refines, h.acked c hc ha _ (hsub hmem)⟩

def acknowledgedBatch : Bytes :=
  Batch.headerOnly (-1) 0 1

-- The follower is not heard of for eleven seconds. The leader acknowledges on its own and crashes, and
-- the controller still takes the follower for a member of the ISR.
def acknowledgedAlone : List Step := [
  .tick 11000000000, .produce 1 acknowledgedBatch (-1) 0, .await 1 0, .finish 1 0, .crash 1
]

structure Outcome where
  batch      : Bytes
  acks       : Int
  errorCode  : ErrorCode
  baseOffset : Int
  deriving DecidableEq

def Output.outcome? : Output → Option Outcome
  | .produced c => some ⟨c.batch, c.acks, c.response.errorCode, c.response.baseOffset⟩
  | .fetched .. => none

-- What is left when broker 1 is gone.
structure Aftermath where
  outcomes  : List Outcome
  alive     : Bool
  newLeader : Option Int
  entries   : Except IOError (List Bytes)
  deriving DecidableEq

def aftermath (s : State) (os : List Output) : Aftermath where
  outcomes  := os.filterMap Output.outcome?
  alive     := (s.nodes 1).alive
  newLeader := (reassign (· ∈ [2]) 1 s.registry).map (·.leader)
  entries   := (s.log 2).entries

theorem State.Has.entries {b : Int} {batch : Bytes} {o : Int} {L : List Bytes} (h : s.Has b batch o)
    (hL : (s.log b).entries = .ok L) : Holds L batch o := by
  have ⟨L', hrefines, hholds⟩ := h
  cases hrefines.entries.symm.trans hL
  exact hholds

end Network.Cluster
