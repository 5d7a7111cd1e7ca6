import Gokaf.Network.Theorems.Cluster

open Go Protocol Replication
open Following (Phase Rounds)

namespace Network.Cluster

variable {p : Setup} {s s' : State} {n : Nat} {now : Int} {as : List Step} {os : List Output}

-- The leader's answer to a follower means that the follower's entries are its own.
def Output.IsMatched : Output → Prop
  | .fetched byLeader fetchOffset errorCode leader follower =>
    byLeader → errorCode = .none → ∃ L F, leader.Refines L ∧ follower.Refines F ∧
      0 ≤ fetchOffset ∧ F.take fetchOffset.toNat = L.take fetchOffset.toNat
  | .produced _ => True

-- Batches are framed, the rounds of a broker do not overlap, no request is answered that has been overtaken
-- by batches which its sender took as the leader, and no replica has more entries than a broker that is made
-- the leader, or is about to.
def Orderly (s : State) : Step → Prop
  | .produce _ batch _ _ => Framed batch
  | .fetch b _ => s.Idle b
  | .answer b i => b = s.registry.leader → (s.nodes b).phases[i]? = some (.fetching (s.log b).endOffset)
  | .peerDown deadID live => ∀ r ∈ reassign (· ∈ live) deadID s.registry,
      ∀ m ∈ r.replicas, s.reach m ≤ (s.log r.leader).endOffset
  | _ => True

instance (s : State) : DecidablePred (Orderly s) := fun _ => by
  unfold Orderly
  split <;> infer_instance

-- What a broker knows of the partition: who its replicas are, and that they are the ones to ask.
structure Node.Knows (n : Node) (r : Topic.Partition) (b : Int) : Prop where
  replicas : n.view.replicas = r.replicas
  leader   : n.view.leader ∈ r.replicas
  sources  : ∀ src ∈ n.sources, b ∈ r.replicas ∧ src ∈ r.replicas
  leads    : n.alive = true → n.view.leader = b → r.leader = b
  crashed  : n.alive = false → n.fetchers = []

namespace Node.Knows

variable {node node' : Node} {r : Topic.Partition} {b : Int}

theorem same (h : node.Knows r b) (hs : node.Same node') : node'.Knows r b where
  replicas        := hs.view ▸ h.replicas
  leader          := hs.view ▸ h.leader
  sources src hsrc := h.sources src (hs.sources hsrc)
  leads ha hv     := h.leads (hs.alive ha) (hs.view ▸ hv)
  crashed         := hs.crashed h.crashed

theorem setLeading {leading : Leading} (h : node.Knows r b) : Knows { node with leading } r b :=
  ⟨h.replicas, h.leader, h.sources, h.leads, h.crashed⟩

theorem setPhase {i : Nat} {phase : Phase} (h : node.Knows r b) : (node.setPhase i phase).Knows r b where
  replicas   := h.replicas
  leader     := h.leader
  sources    := sources_setPhase node i phase ▸ h.sources
  leads      := h.leads
  crashed ha := by simp [Node.setPhase, h.crashed ha]

theorem startFollowing (h : node.Knows r b) (ha : node.alive = true) : (node.startFollowing b now).Knows r b where
  replicas     := h.replicas
  leader       := h.leader
  sources src hsrc := by
    obtain hold | ⟨hb, heq, _⟩ := mem_sources_startFollowing hsrc
    case inl => exact h.sources src hold
    case inr => exact ⟨h.replicas ▸ hb, heq ▸ h.leader⟩
  leads        := h.leads
  crashed hdead := by
    rw [alive_startFollowing, ha] at hdead
    contradiction

theorem boot {log : Storage.Log} (hleader : r.leader ∈ r.replicas) : (Node.boot b now r log).Knows r b :=
  startFollowing ⟨rfl, hleader, by simp [Node.sources], fun _ hv => hv, fun _ => rfl⟩ rfl

end Node.Knows

-- All replicas have a part of what the leader has.
structure Matched (n : Nat) (s : State) (logs : Int → List Bytes) : Prop extends
    s.Copies s.registry.replicas s.registry.leader n logs where
  leader_mem : s.registry.leader ∈ s.registry.isr
  isr_subset : s.registry.isr ⊆ s.registry.replicas
  nodes      : ∀ b, (s.nodes b).Knows s.registry b

namespace Matched

variable {logs : Int → List Bytes} {b : Int} {i : Nat}

theorem mem_replicas (h : Matched n s logs) : s.registry.leader ∈ s.registry.replicas :=
  h.isr_subset h.leader_mem

theorem succ (h : Matched n s logs) : Matched (n + 1) s logs :=
  { h with toCopies := h.toCopies.le (Nat.le_succ n) }

theorem same (h : Matched n s logs) (hs : s.Same s') : Matched n s' logs where
  toCopies   := hs.registry ▸ h.toCopies.same hs
  leader_mem := hs.registry ▸ h.leader_mem
  isr_subset := hs.registry ▸ h.isr_subset
  nodes b    := hs.registry ▸ (h.nodes b).same (hs.nodes b)

-- One broker changes. A follower's log stays a part of the leader's, the leader's log only grows.
theorem setNode {node : Node} {M : List Bytes} (h : Matched n s logs)
    (hstores : b ∈ s.registry.replicas → node.leading.log.Stores M)
    (hother : b ∈ s.registry.replicas → b ≠ s.registry.leader → M <+: logs s.registry.leader)
    (hleader : b = s.registry.leader → logs b <+: M ∧ (∀ e ∈ M, Framed e ∧ e.length < 2 ^ 31) ∧
      M.length ≤ n + 1)
    (hrounds : b ∈ s.registry.replicas → Rounds (Sound s.registry.leader (Function.update logs b M) b) node.phases)
    (hknows : node.Knows s.registry b) :
    Matched (n + 1) (s.setNode b node) (Function.update logs b M) where
  toCopies   := h.toCopies.setNode (Nat.le_succ n) hstores hother hleader hrounds
  leader_mem := h.leader_mem
  isr_subset := h.isr_subset
  nodes m := by
    rw [State.nodes_setNode]
    split
    case isTrue heq => exact heq ▸ hknows
    case isFalse    => exact h.nodes m

-- A broker changes, but not its log.
theorem setNode_log {node : Node} (h : Matched n s logs) (hlog : node.leading.log = s.log b)
    (hrounds : b ∈ s.registry.replicas → Rounds (Sound s.registry.leader logs b) node.phases)
    (hknows : node.Knows s.registry b) : Matched (n + 1) (s.setNode b node) logs := by
  have heq : Function.update logs b (logs b) = logs := Function.update_eq_self ..
  rw [← heq] at hrounds ⊢
  exact h.setNode (fun hb => hlog ▸ h.stores b hb) (fun hb _ => h.isPrefix b hb)
    (fun hb => ⟨List.prefix_rfl, hb ▸ h.framed, Nat.le_succ_of_le (hb ▸ h.length_le)⟩) hrounds hknows

theorem produce {batch : Bytes} {acks timeoutMS : Int} (h : Matched n s logs) (hn : n + 1 < 2 ^ 63)
    (halive : (s.nodes b).alive = true) (hb : batch.length < 2 ^ 31) (hf : Framed batch) :
    ∃ logs', Matched (n + 1) (s.setNode b { s.nodes b with
      leading := (s.nodes b).leading.produce b (some (s.nodes b).view.leader) p.topicName p.partition.id batch acks
        timeoutMS }) logs' := by
  have hknows := h.nodes b
  by_cases hv : (s.nodes b).view.leader = b
  case neg => exact ⟨logs, h.setNode_log (Leading.log_produce_of_ne hv ..) (h.rounds b) hknows.setLeading⟩
  case pos =>
    have hlead := hknows.leads halive hv
    have hmem : b ∈ s.registry.replicas := hlead ▸ h.mem_replicas
    have hle := h.length_le
    rw [hlead] at hle
    have hb' : batch.length < 2 ^ 32 := by omega
    obtain ⟨producers, log, produced, hp, hcases⟩ := Leading.producePartition_cases (h.stores b hmem) b
      (some (s.nodes b).view.leader) p.topicName p.partition.id hb' (by omega)
    have hlog : ((s.nodes b).leading.produce b (some (s.nodes b).view.leader) p.topicName p.partition.id batch acks
        timeoutMS).log = log := by
      simp only [Leading.produce, hp]
    cases hcases
    case inl hsame => exact ⟨logs, h.setNode_log (hlog.trans hsame.left) (h.rounds b) hknows.setLeading⟩
    case inr happ =>
      obtain ⟨_, hstores, _⟩ := happ
      have hsame := Batch.sameBatch_withBaseOffset batch (logs b).length
      refine ⟨_, h.setNode (fun _ => hlog ▸ hstores) (fun _ hne => absurd hlead.symm hne)
        (fun _ => ⟨List.prefix_append _ _, ?_, by simpa using hle⟩) (fun _ => ?_) hknows.setLeading⟩
      · refine List.forall_mem_append.mpr ⟨hlead ▸ h.framed, List.forall_mem_singleton.mpr ?_⟩
        exact ⟨hsame.framed hf, hsame.length ▸ hb⟩
      · have hrounds := h.rounds b hmem
        rw [hlead] at hrounds ⊢
        exact hrounds.mono fun _ _ hs => hs.of_leader

theorem peerDown {deadID : Int} {live : List Int} (h : Matched n s logs)
    (hdead : (s.nodes deadID).alive = false) (hc : Orderly s (.peerDown deadID live)) :
    Matched (n + 1) { s with registry := (reassign (· ∈ live) deadID s.registry).getD s.registry } logs := by
  cases hr : reassign (· ∈ live) deadID s.registry
  case none => exact h.succ
  case some r =>
    obtain ⟨hlead, hmem, hsub, _, heq⟩ := reassign_eq_some hr
    have hreplicas : r.replicas = s.registry.replicas := by rw [heq]
    have hcopies := h.toCopies.reassign (h.isr_subset (hsub hmem)) (hreplicas ▸ List.Subset.refl _)
      (fun _ => (h.nodes _).crashed (hlead ▸ hdead)) (hc r hr) r
    rw [Option.getD_some]
    refine ⟨hcopies.le (Nat.le_succ n), hmem, fun m hm => hreplicas ▸ h.isr_subset (hsub hm), fun b => ?_⟩
    have hknows := h.nodes b
    refine ⟨hreplicas ▸ hknows.replicas, hreplicas ▸ hknows.leader, hreplicas ▸ hknows.sources, fun ha hv => ?_,
      hknows.crashed⟩
    have := (hknows.leads ha hv).symm.trans hlead
    rw [this, hdead] at ha
    contradiction

-- The request of a broker that does not lead is at the end of its log.
theorem fetchOffset {source fetchOffset : Int} {cancelled : Bool} (h : Matched n s logs)
    (hf : (s.nodes b).fetchers[i]? = some ⟨source, cancelled, .fetching fetchOffset⟩) (hc : Orderly s (.answer b i)) :
    b ∈ s.registry.replicas ∧ source ∈ s.registry.replicas ∧ fetchOffset = (logs b).length := by
  have hsource : source ∈ (s.nodes b).sources := List.mem_map_of_mem (List.mem_of_getElem? hf)
  obtain ⟨hb, hsource⟩ := (h.nodes b).sources source hsource
  have hp := Node.phases_getElem? hf
  refine ⟨hb, hsource, ?_⟩
  by_cases hlead : b = s.registry.leader
  case neg => exact (h.rounds b hb i _ hp rfl).left hlead
  case pos =>
    have heq := hp.symm.trans (hc hlead)
    rw [(h.stores b hb).endOffset] at heq
    exact Phase.fetching.inj (Option.some.inj heq)

theorem answer {source : Int} {cancelled : Bool} {led : Option PartitionState} {ws : List Waiter}
    {response : FetchPartitionResponse} (h : Matched n s logs)
    (hf : (s.nodes b).fetchers[i]? = some ⟨source, cancelled, .fetching (logs b).length⟩)
    (hb : b ∈ s.registry.replicas) (hsource : source ∈ s.registry.replicas)
    (hr : Answers (logs source) (logs b).length response) :
    let batches := batchesOf (writeFetchResponse [⟨p.topicName, [response]⟩])
    let s₁ := s.setNode source { s.nodes source with leading := (s.nodes source).leading.recorded led ws }
    Matched (n + 1) (s₁.setNode b ((s₁.nodes b).setPhase i (.ofBatches batches))) logs := by
  intro batches s₁
  have hsame : s.Same s₁ := State.same_setNode (Node.same_leading rfl)
  have h₁ : Matched n s₁ logs := h.same hsame
  have hphases : (s₁.nodes b).phases = (s.nodes b).phases := by
    simp only [s₁, State.nodes_setNode]
    split
    case isTrue heq => rw [heq]; rfl
    case isFalse    => rfl
  refine h₁.setNode_log rfl (fun _ => ?_) (h₁.nodes b).setPhase
  rw [Node.phases_setPhase]
  exact h₁.toCopies.answer hb hsource p.short (hphases ▸ Node.phases_getElem? hf) hr

-- The answer that comes with the round.
theorem isMatched {source : Int} {response : FetchPartitionResponse} (h : Matched n s logs)
    (hb : b ∈ s.registry.replicas) (hsource : source ∈ s.registry.replicas) :
    Output.IsMatched (.fetched (source = s.registry.leader) (logs b).length response.errorCode (s.log source)
      (s.log b)) := by
  intro hlead hnone
  refine ⟨logs source, logs b, (h.stores source hsource).refines, (h.stores b hb).refines, by omega, ?_⟩
  have hpre : logs b <+: logs source := of_decide_eq_true hlead ▸ h.isPrefix b hb
  rw [Int.toNat_natCast, List.take_length, ← List.prefix_iff_eq_take]
  exact hpre

theorem append {source : Int} {cancelled : Bool} {batch : Bytes} {batches : List Bytes} (h : Matched n s logs)
    (hn : n < 2 ^ 63) (hf : (s.nodes b).fetchers[i]? = some ⟨source, cancelled, .appending (batch :: batches)⟩) :
    ∃ log o logs', (s.log b).append batch = (log, .ok o) ∧
      Matched (n + 1) (s.setNode b (Node.setPhase { s.nodes b with
        leading := { (s.nodes b).leading with log } } i (.ofBatches batches))) logs' := by
  obtain ⟨hb, -⟩ := (h.nodes b).sources source (List.mem_map_of_mem (List.mem_of_getElem? hf))
  obtain ⟨hne, log, happend, hstores, hpre, hrounds⟩ := h.toCopies.append hn hb (Node.phases_getElem? hf)
  refine ⟨log, _, _, happend, h.setNode (fun _ => hstores) (fun _ _ => hpre) (fun heq => absurd heq hne)
    (fun _ => ?_) (h.nodes b).setLeading.setPhase⟩
  rwa [Node.phases_setPhase]

theorem restart {n' m' : Nat} {log : Storage.Log} (h : Matched n s logs) (hne : s.registry.leader ≠ b)
    (hopen : (p.location b).openLog ((s.log b).crash n' m') = .ok log) :
    ∃ logs', Matched (n + 1) (s.setNode b (.boot b s.now s.registry log)) logs' := by
  rw [(p.ordinary b).openLog_eq] at hopen
  refine ⟨_, h.setNode (M := Storage.survivors (logs b) (s.log b).active.baseOffset.toNat n') (fun hb => ?_)
    (fun hb _ => (List.take_prefix _ _).trans (h.isPrefix b hb)) (fun heq => absurd heq.symm hne)
    (fun _ => Node.rounds_startFollowing .nil) (.boot h.mem_replicas)⟩
  obtain ⟨log', hopen', hstores⟩ := (h.stores b hb).openFiles_crash n' m'
  cases hopen.symm.trans hopen'
  exact hstores

end Matched

-- One step: whoever is made the leader has everything that any replica has.
theorem inductive_matched (p : Setup) :
    (machine p).InductiveUpTo Orderly (2 ^ 63 - 1) fun n s os =>
      (∃ logs, Matched n s logs) ∧ ∀ o ∈ os, o.IsMatched where
  step {n s a s' o os} hn hinv hc hs := by
    obtain ⟨⟨logs, h⟩, hos⟩ := hinv
    suffices (∃ logs, Matched (n + 1) s' logs) ∧ ∀ a ∈ o, a.IsMatched from
      ⟨this.left, List.forall_mem_append.mpr ⟨hos, this.right⟩⟩
    cases a
    case produce b batch acks timeoutMS =>
      simp only [machine] at hs
      split at hs
      case isFalse => contradiction
      case isTrue hcond =>
        cases Option.some.inj hs
        exact ⟨h.produce (by omega) hcond.left hcond.right hc, by simp⟩
    case fetch b i =>
      simp only [machine] at hs
      split at hs
      case h_2 => contradiction
      case h_1 =>
        cases Option.some.inj hs
        refine ⟨⟨logs, h.setNode_log rfl (fun hb => ?_) (h.nodes b).setPhase⟩, by simp⟩
        rw [Node.phases_setPhase]
        exact h.toCopies.fetch hb hc
    case answer b i =>
      simp only [machine] at hs
      split at hs
      case h_2 => contradiction
      case h_1 source cancelled fetchOffset hf =>
        split at hs
        case isFalse => contradiction
        case isTrue =>
          obtain ⟨hb, hsource, rfl⟩ := h.fetchOffset hf hc
          obtain ⟨response, hr, hfetch⟩ := fetchPartition_answers (h.stores source hsource)
            (s.nodes source).leading.led b p.partition.id (logs b).length fetchMaxBytes s.now
          simp only [State.log] at hfetch
          rw [hfetch] at hs
          cases Option.some.inj hs
          refine ⟨⟨logs, h.answer hf hb hsource hr⟩, ?_⟩
          exact List.forall_mem_singleton.mpr (h.isMatched hb hsource)
    case append b i =>
      simp only [machine] at hs
      split at hs
      case h_2 => contradiction
      case h_1 source cancelled batch batches hf =>
        obtain ⟨log, o, logs', happend, h'⟩ := h.append (by omega) hf
        simp only [State.log] at happend
        rw [happend] at hs
        cases Option.some.inj hs
        exact ⟨⟨logs', h'⟩, by simp⟩
    case peerDown deadID live =>
      simp only [machine] at hs
      split at hs
      case isTrue => contradiction
      case isFalse hdead =>
        cases Option.some.inj hs
        exact ⟨⟨logs, h.peerDown (by simpa using hdead) hc⟩, by simp⟩
    case upsert b =>
      simp only [machine] at hs
      split at hs
      case isFalse => contradiction
      case isTrue =>
        cases Option.some.inj hs
        have hknows := h.nodes b
        exact ⟨⟨logs, h.setNode_log rfl (h.rounds b)
          ⟨rfl, h.mem_replicas, hknows.sources, fun _ hv => hv, hknows.crashed⟩⟩, by simp⟩
    case startFollowing b =>
      simp only [machine] at hs
      split at hs
      case isFalse => contradiction
      case isTrue halive =>
        cases Option.some.inj hs
        exact ⟨⟨logs, h.setNode_log rfl (fun hb => Node.rounds_startFollowing (h.rounds b hb))
          ((h.nodes b).startFollowing halive)⟩, by simp⟩
    case restart b logBytes indexBytes =>
      simp only [machine] at hs
      split at hs
      case isTrue => contradiction
      case isFalse hcond =>
        split at hs
        case h_1 => contradiction
        case h_2 log hopen =>
          cases Option.some.inj hs
          exact ⟨h.restart (fun heq => hcond (.inr heq)) hopen, by simp⟩
    all_goals
      obtain ⟨hsame, hout⟩ := same_of_isQuiet rfl hs
      refine ⟨⟨logs, (h.same hsame).succ⟩, fun x hx => ?_⟩
      obtain ⟨c, heq⟩ := hout x hx
      subst heq
      trivial

theorem matched_init (p : Setup) (now : Int) : Matched 0 (.init p now) fun _ => [] where
  stores _ _   := Storage.Log.empty_stores
  isPrefix _ _ := List.prefix_rfl
  framed       := by simp
  length_le    := le_rfl
  rounds _ _   := Node.rounds_startFollowing .nil
  leader_mem   := p.leader_mem
  isr_subset   := p.isr_subset
  nodes _      := .boot (p.isr_subset p.leader_mem)

def firstBatch : Bytes :=
  Batch.headerOnly (-1) 0 1

def secondBatch : Bytes :=
  Batch.headerOnly (-1) 7 1

-- The leader crashes with an entry that no follower has, and comes back as a follower of a leader that
-- has another entry in its place.
def unreplicatedTail : List Step := [
  .produce 1 firstBatch 1 0, .finish 1 0,
  .crash 1, .peerDown 1 [2], .upsert 2, .startFollowing 2,
  .produce 2 secondBatch 1 0, .finish 2 0,
  .restart 1 1000 1000,
  .fetch 1 0, .answer 1 0
]

-- The entries on both sides of a fetch that the leader answers without an error.
structure Comparison where
  fetchOffset : Int
  leader      : Except IOError (List Bytes)
  follower    : Except IOError (List Bytes)
  deriving DecidableEq

def Output.comparison? : Output → Option Comparison
  | .fetched true fetchOffset .none leader follower => some ⟨fetchOffset, leader.entries, follower.entries⟩
  | _ => none

theorem Output.IsMatched.take_eq {x : Output} {f : Int} {L F : List Bytes} (h : x.IsMatched)
    (hx : x.comparison? = some ⟨f, .ok L, .ok F⟩) : F.take f.toNat = L.take f.toNat := by
  unfold comparison? at hx
  split at hx
  case h_2 => contradiction
  case h_1 =>
    have ⟨L', F', hL, hF, _, heq⟩ := h rfl rfl
    rw [hL.entries, hF.entries] at hx
    cases Option.some.inj hx
    exact heq

end Network.Cluster
