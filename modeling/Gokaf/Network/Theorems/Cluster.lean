import Gokaf.Network.Cluster
import Gokaf.Network.Theorems.Leading
import Gokaf.Replication.Theorems.Following
import Mathlib.Algebra.Order.BigOperators.Group.List
import Mathlib.Algebra.Order.Ring.Nat

open Go Protocol Replication
open Following (Phase Rounds)

namespace Network.Cluster

theorem isPrefix_update {logs : Int → List Bytes} {b : Int} {M : List Bytes} (h : logs b <+: M) (m : Int) :
    logs m <+: Function.update logs b M m := by
  by_cases hm : m = b
  case pos =>
    rw [hm, Function.update_self]
    exact h
  case neg => simp [Function.update_of_ne hm]

-- A reassignment picks the new leader and the new ISR from the rest of the old ISR.
theorem reassign_eq_some {peerAlive : Int → Bool} {deadID : Int} {r r' : Topic.Partition}
    (h : reassign peerAlive deadID r = some r') :
    r.leader = deadID ∧ r'.leader ∈ r'.isr ∧ r'.isr ⊆ r.isr ∧ deadID ∉ r'.isr ∧
      r' = { r with leader := r'.leader, isr := r'.isr } := by
  simp only [reassign] at h
  split at h
  case isTrue => contradiction
  case isFalse hlead =>
    split at h
    case h_1 => contradiction
    case h_2 leader live heq =>
      cases Option.some.inj h
      have hlive : ∀ b ∈ leader :: live, b ∈ r.isr ∧ b ≠ deadID := by
        intro b hb
        rw [← heq, liveISR, List.mem_insertionSort, List.mem_filter] at hb
        exact ⟨hb.left, (of_decide_eq_true hb.right).left⟩
      exact ⟨not_not.mp hlead, List.mem_cons_self, fun b hb => (hlive b hb).left,
        fun hdead => (hlive _ hdead).right rfl,
        rfl⟩

namespace Node

variable {n n' : Node} {b now : Int} {i : Nat} {phase : Phase}

def phases (n : Node) : List Phase :=
  n.fetchers.map (·.phase)

-- The brokers that its fetchers ask.
def sources (n : Node) : List Int :=
  n.fetchers.map (·.source)

@[simp]
theorem log_startFollowing (n : Node) (b now : Int) : (n.startFollowing b now).leading.log = n.leading.log :=
  rfl

@[simp]
theorem view_startFollowing (n : Node) (b now : Int) : (n.startFollowing b now).view = n.view :=
  rfl

@[simp]
theorem alive_startFollowing (n : Node) (b now : Int) : (n.startFollowing b now).alive = n.alive :=
  rfl

theorem phases_getElem? {f : Fetcher} (h : n.fetchers[i]? = some f) : n.phases[i]? = some f.phase := by
  rw [phases, List.getElem?_map, h]
  rfl

@[simp]
theorem phases_setPhase (n : Node) (i : Nat) (phase : Phase) : (n.setPhase i phase).phases = n.phases.set i phase := by
  unfold setPhase phases
  refine Following.map_modify fun _ => ?_
  rfl

@[simp]
theorem sources_setPhase (n : Node) (i : Nat) (phase : Phase) : (n.setPhase i phase).sources = n.sources := by
  refine List.ext_getElem? fun j => ?_
  simp only [sources, setPhase, List.getElem?_map, List.getElem?_modify]
  cases n.fetchers[j]? with
  | none   => rfl
  | some f => by_cases hij : i = j <;> simp [hij]

theorem rounds_startFollowing {P : Phase → Prop} (h : Rounds P n.phases) :
    Rounds P (n.startFollowing b now).phases := by
  have hphases : (n.startFollowing b now).phases =
      n.phases ++ (n.startFollowing b now).source.toList.map fun _ => .waiting := by
    simp [startFollowing, setReplica, phases, Function.comp_def]
  rw [hphases]
  cases (n.startFollowing b now).source
  case none   => simpa using h
  case some _ => exact h.snoc_waiting

theorem mem_sources_startFollowing {src : Int} (h : src ∈ (n.startFollowing b now).sources) :
    src ∈ n.sources ∨ b ∈ n.view.replicas ∧ src = n.view.leader ∧ src ≠ b := by
  have hsources : (n.startFollowing b now).sources = n.sources ++ (n.startFollowing b now).source.toList := by
    simp [startFollowing, setReplica, sources, Function.comp_def]
  rw [hsources] at h
  refine (List.mem_append.mp h).imp_right fun hsrc => ?_
  have hsrc := Option.mem_toList.mp hsrc
  simp only [startFollowing, setReplica, Replica.startFollowing, Replica.stopFollowing] at hsrc
  split at hsrc
  case isTrue => contradiction
  case isFalse hb =>
    split at hsrc
    case isTrue =>
      split at hsrc
      all_goals contradiction
    case isFalse hne =>
      cases hsrc
      exact ⟨not_not.mp hb, rfl, hne⟩

theorem led_startFollowing {st : PartitionState} (h : (n.startFollowing b now).leading.led = some st) :
    n.leading.led = some st ∨ n.view.leader = b ∧
      st = .new (if n.view.isr = [] then n.view.replicas else n.view.isr) b lagTimeout now := by
  simp only [startFollowing, setReplica, Replica.startFollowing, Replica.stopFollowing] at h
  split at h
  case isTrue => exact .inl h
  case isFalse =>
    split at h
    case isFalse => contradiction
    case isTrue hlead =>
      split at h
      case h_1 => exact .inl h
      case h_2 => exact .inr ⟨hlead, (Option.some.inj h).symm⟩

-- Nobody can tell the difference from the log, the registry and the fetchers. The broker may go down,
-- and rounds may end.
structure Same (n n' : Node) : Prop where
  log     : n'.leading.log = n.leading.log
  view    : n'.view = n.view
  alive   : n'.alive = true → n.alive = true
  sources : n'.sources ⊆ n.sources
  rounds  : ∀ P, Rounds P n.phases → Rounds P n'.phases
  crashed : (n.alive = false → n.fetchers = []) → n'.alive = false → n'.fetchers = []

theorem Same.refl (n : Node) : n.Same n :=
  ⟨rfl, rfl, id, List.Subset.refl _, fun _ => id, id⟩

theorem same_leading {leading : Leading} (hlog : leading.log = n.leading.log) : n.Same { n with leading } :=
  ⟨hlog, rfl, id, List.Subset.refl _, fun _ => id, id⟩

theorem same_crash (n : Node) : n.Same n.crash where
  log         := rfl
  view        := rfl
  alive h     := by contradiction
  sources     := List.nil_subset _
  rounds _ _  := .nil
  crashed _ _ := rfl

theorem same_setPhase (n : Node) (i : Nat) (hphase : phase.inFlight = false) : n.Same (n.setPhase i phase) where
  log         := rfl
  view        := rfl
  alive       := id
  sources     := by rw [sources_setPhase]; exact List.Subset.refl _
  rounds P h  := by rw [phases_setPhase]; exact h.set_idle hphase
  crashed h ha := by simp [setPhase, h ha]

end Node

-- What a round under way may rely on. Nothing is known of the request of a broker that leads by now.
def Sound (leader : Int) (logs : Int → List Bytes) (b : Int) : Phase → Prop
  | .fetching offset    => b ≠ leader → offset = (logs b).length
  | .appending batches  => logs b ++ batches <+: logs leader
  | .waiting | .exited  => True

section Sound

variable {leader b : Int} {logs logs' : Int → List Bytes} {phase : Phase} {batches : List Bytes}

theorem Sound.mono (h : Sound leader logs b phase) (hb : logs' b = logs b) (hleader : logs leader <+: logs' leader) :
    Sound leader logs' b phase := by
  cases phase
  case fetching  => exact fun hne => (h hne).trans (by rw [hb])
  case appending =>
    rw [Sound, hb]
    exact List.IsPrefix.trans h hleader
  all_goals trivial

-- The leader has nothing to take from others.
theorem Sound.of_leader (h : Sound b logs b phase) : Sound b logs' b phase := by
  cases phase
  case fetching  => exact fun hne => absurd rfl hne
  case appending batches =>
    have hle := List.IsPrefix.length_le h
    obtain rfl : batches = [] := List.length_eq_zero_iff.mp (by rw [List.length_append] at hle; omega)
    rw [Sound, List.append_nil]
  all_goals trivial

theorem sound_ofBatches (h : logs b ++ batches <+: logs leader) : Sound leader logs b (.ofBatches batches) := by
  cases batches
  case nil  => trivial
  case cons => exact h

end Sound

-- How many entries a fetcher is about to append.
def pending : Phase → Nat
  | .appending batches => batches.length
  | _                  => 0

namespace State

variable {s s' : State} {b m : Int} {n : Node}

@[simp]
theorem nodes_setNode (s : State) (b : Int) (n : Node) (m : Int) :
    (s.setNode b n).nodes m = if m = b then n else s.nodes m :=
  Function.update_apply ..

@[simp]
theorem registry_setNode (s : State) (b : Int) (n : Node) : (s.setNode b n).registry = s.registry :=
  rfl

@[simp]
theorem now_setNode (s : State) (b : Int) (n : Node) : (s.setNode b n).now = s.now :=
  rfl

structure Same (s s' : State) : Prop where
  registry : s'.registry = s.registry
  nodes    : ∀ b, (s.nodes b).Same (s'.nodes b)

theorem same_setNode (h : (s.nodes b).Same n) : s.Same (s.setNode b n) where
  registry := rfl
  nodes m := by
    rw [nodes_setNode]
    split
    case isTrue heq => exact heq ▸ h
    case isFalse    => exact .refl _

-- The entries that a broker has or is about to append.
def reach (s : State) (b : Int) : Int :=
  (s.log b).endOffset + ((s.nodes b).phases.map pending).sum

def Idle (s : State) (b : Int) : Prop :=
  ∀ phase ∈ (s.nodes b).phases, phase.inFlight = false

instance : Decidable (s.Idle b) :=
  inferInstanceAs (Decidable (∀ phase ∈ (s.nodes b).phases, phase.inFlight = false))

-- Some brokers each hold a part of what one of them holds, which is made of batches, and take nothing
-- but parts of it.
structure Copies (s : State) (brokers : List Int) (leader : Int) (n : Nat) (logs : Int → List Bytes) : Prop where
  stores    : ∀ m ∈ brokers, (s.log m).Stores (logs m)
  isPrefix  : ∀ m ∈ brokers, logs m <+: logs leader
  framed    : ∀ e ∈ logs leader, Framed e ∧ e.length < 2 ^ 31
  length_le : (logs leader).length ≤ n
  rounds    : ∀ m ∈ brokers, Rounds (Sound leader logs m) (s.nodes m).phases

namespace Copies

variable {brokers brokers' : List Int} {leader leader' : Int} {k k' i : Nat} {logs : Int → List Bytes}
variable {M : List Bytes}

theorem le (h : s.Copies brokers leader k logs) (hk : k ≤ k') : s.Copies brokers leader k' logs :=
  { h with length_le := h.length_le.trans hk }

theorem same (h : s.Copies brokers leader k logs) (hs : s.Same s') : s'.Copies brokers leader k logs where
  stores m hm := by
    have hlog : s'.log m = s.log m := (hs.nodes m).log
    exact hlog ▸ h.stores m hm
  isPrefix    := h.isPrefix
  framed      := h.framed
  length_le   := h.length_le
  rounds m hm := (hs.nodes m).rounds _ (h.rounds m hm)

-- One broker changes. The leader's log only grows, and the log of another stays a part of it.
theorem setNode (h : s.Copies brokers leader k logs) (hk : k ≤ k') (hstores : b ∈ brokers → n.leading.log.Stores M)
    (hother : b ∈ brokers → b ≠ leader → M <+: logs leader)
    (hleader : b = leader → logs b <+: M ∧ (∀ e ∈ M, Framed e ∧ e.length < 2 ^ 31) ∧ M.length ≤ k')
    (hrounds : b ∈ brokers → Rounds (Sound leader (Function.update logs b M) b) n.phases) :
    (s.setNode b n).Copies brokers leader k' (Function.update logs b M) := by
  have hold : ∀ m, m ≠ b → Function.update logs b M m = logs m := fun m hm => Function.update_of_ne hm ..
  have hself : Function.update logs b M b = M := Function.update_self ..
  have hgrow : logs leader <+: Function.update logs b M leader := by
    by_cases hb : leader = b
    case pos =>
      rw [hb, hself]
      exact (hleader hb.symm).left
    case neg => rw [hold leader hb]
  refine ⟨fun m hm => ?_, fun m hm => ?_, ?_, ?_, fun m hm => ?_⟩
  · by_cases hmb : m = b
    case pos =>
      subst hmb
      simpa [log, hself] using hstores hm
    case neg =>
      rw [hold m hmb]
      simpa [log, hmb] using h.stores m hm
  · by_cases hmb : m = b
    case pos =>
      subst hmb
      by_cases hm' : m = leader
      case pos => rw [hm']
      case neg =>
        rw [hself]
        exact (hother hm hm').trans hgrow
    case neg =>
      rw [hold m hmb]
      exact (h.isPrefix m hm).trans hgrow
  · by_cases hb : leader = b
    case pos =>
      rw [hb, hself]
      exact (hleader hb.symm).right.left
    case neg =>
      rw [hold leader hb]
      exact h.framed
  · by_cases hb : leader = b
    case pos =>
      rw [hb, hself]
      exact (hleader hb.symm).right.right
    case neg =>
      rw [hold leader hb]
      exact h.length_le.trans hk
  · by_cases hmb : m = b
    case pos =>
      subst hmb
      simpa using hrounds hm
    case neg =>
      simp only [nodes_setNode, hmb, if_false]
      exact (h.rounds m hm).mono fun _ _ hs => hs.mono (hold m hmb) hgrow

-- The first step of a round.
theorem fetch (h : s.Copies brokers leader k logs) (hb : b ∈ brokers) (hidle : s.Idle b) :
    Rounds (Sound leader logs b) ((s.nodes b).phases.set i (.fetching (s.log b).endOffset)) := by
  refine Rounds.set (fun j q hq hf => ?_) fun _ => (h.stores b hb).endOffset
  rw [hidle q (List.mem_of_getElem? hq)] at hf
  contradiction

-- The answer of another replica to a request at the end of the log.
theorem answer {topicName : Bytes} {src : Int} {response : FetchPartitionResponse} (h : s.Copies brokers leader k logs)
    (hb : b ∈ brokers) (hsrc : src ∈ brokers) (ht : topicName.length < 2 ^ 15)
    (hp : (s.nodes b).phases[i]? = some (.fetching (logs b).length))
    (hr : Answers (logs src) (logs b).length response) :
    Rounds (Sound leader logs b) ((s.nodes b).phases.set i
      (.ofBatches (batchesOf (writeFetchResponse [⟨topicName, [response]⟩])))) := by
  have hpre := Following.answer_isPrefix ht (fun e he => (h.framed e he).left) (h.isPrefix b hb)
    (h.isPrefix src hsrc) hr
  generalize batchesOf _ = batches at hpre ⊢
  exact Rounds.set (h.rounds b hb i _ hp rfl).right (sound_ofBatches hpre)

-- The next batch of a round.
theorem append {batch : Bytes} {batches : List Bytes} (h : s.Copies brokers leader k logs) (hk : k < 2 ^ 63)
    (hb : b ∈ brokers) (hp : (s.nodes b).phases[i]? = some (.appending (batch :: batches))) :
    b ≠ leader ∧ ∃ l, (s.log b).append batch = (l, .ok (logs b).length) ∧ l.Stores (logs b ++ [batch]) ∧
      logs b ++ [batch] <+: logs leader ∧
      Rounds (Sound leader (Function.update logs b (logs b ++ [batch])) b)
        ((s.nodes b).phases.set i (.ofBatches batches)) := by
  obtain ⟨hsound, honly⟩ := h.rounds b hb i _ hp rfl
  have hpre : logs b ++ batch :: batches <+: logs leader := hsound
  have hne : b ≠ leader := by
    rintro rfl
    have := hpre.length_le
    rw [List.length_append, List.length_cons] at this
    omega
  have hle := h.length_le
  obtain ⟨l, happend, hl, hrest⟩ := Following.append_batch (h.stores b hb) h.framed (by omega) hpre
  refine ⟨hne, l, happend, hl, (List.prefix_append _ _).trans hrest, Rounds.set honly (sound_ofBatches ?_)⟩
  rwa [Function.update_self, Function.update_of_ne hne.symm]

theorem pending_le {phase : Phase} {phases : List Phase} (h : phase ∈ phases) :
    pending phase ≤ (phases.map pending).sum :=
  List.le_sum_of_mem (List.mem_map_of_mem h)

-- Another leader, whose log reaches as far as that of any other broker will.
theorem reassign (h : s.Copies brokers leader k logs) (hleader' : leader' ∈ brokers) (hbrokers' : brokers' ⊆ brokers)
    (hleader : leader ∈ brokers' → (s.nodes leader).fetchers = [])
    (hreach : ∀ m ∈ brokers', s.reach m ≤ (s.log leader').endOffset) (registry : Topic.Partition) :
    Copies { s with registry } brokers' leader' k logs := by
  have hpre := h.isPrefix leader' hleader'
  have hend : ∀ m ∈ brokers', (logs m).length + ((s.nodes m).phases.map pending).sum ≤ (logs leader').length := by
    intro m hm
    have := hreach m hm
    rw [reach, (h.stores m (hbrokers' hm)).endOffset, (h.stores leader' hleader').endOffset] at this
    omega
  refine ⟨fun m hm => h.stores m (hbrokers' hm), fun m hm => ?_, fun e he => h.framed e (hpre.subset he),
    hpre.length_le.trans h.length_le, fun m hm i phase hp hf => ?_⟩
  · have := hend m hm
    exact List.prefix_of_prefix_length_le (h.isPrefix m (hbrokers' hm)) hpre (by omega)
  · obtain ⟨hsound, honly⟩ := h.rounds m (hbrokers' hm) i phase hp hf
    have hne : m ≠ leader := by
      rintro rfl
      simp [Node.phases, hleader hm] at hp
    refine ⟨?_, honly⟩
    cases phase
    case fetching => exact fun _ => hsound hne
    case appending batches =>
      have hmem := pending_le (List.mem_of_getElem? hp)
      have := hend m hm
      refine List.prefix_of_prefix_length_le hsound hpre ?_
      rw [List.length_append]
      simp only [pending] at hmem
      omega
    all_goals trivial

end Copies
end State

-- The steps that leave the logs and the registries alone and start no round.
def Step.isQuiet : Step → Bool
  | .await .. | .expire .. | .finish .. | .abandon .. | .exit .. | .consume .. | .tick _ | .crash _ => true
  | .produce .. | .fetch .. | .answer .. | .append .. | .peerDown .. | .upsert _ | .startFollowing _
  | .restart .. => false

theorem same_of_isQuiet {p : Setup} {s s' : State} {a : Step} {o : List Output} (ha : a.isQuiet = true)
    (hs : (machine p).step s a = some (s', o)) : s.Same s' ∧ ∀ x ∈ o, ∃ c, x = .produced c := by
  cases a <;> simp only [Step.isQuiet, Bool.false_eq_true] at ha
  case await b id =>
    obtain ⟨leading, hawait, heq⟩ := Option.map_eq_some_iff.mp hs
    cases heq
    exact ⟨State.same_setNode (Node.same_leading (Leading.log_of_await hawait)), by simp⟩
  case expire b id =>
    obtain ⟨leading, hexpire, heq⟩ := Option.map_eq_some_iff.mp hs
    cases heq
    exact ⟨State.same_setNode (Node.same_leading (Leading.log_of_expire hexpire)), by simp⟩
  case finish b id =>
    obtain ⟨⟨leading, c⟩, hfinish, heq⟩ := Option.map_eq_some_iff.mp hs
    cases heq
    exact ⟨State.same_setNode (Node.same_leading (Leading.log_of_finish hfinish)), by simp⟩
  case abandon b i =>
    simp only [machine] at hs
    split at hs
    case h_3 => contradiction
    all_goals
      cases Option.some.inj hs
      exact ⟨State.same_setNode (Node.same_setPhase _ i rfl), by simp⟩
  case exit b i =>
    simp only [machine] at hs
    split at hs
    case h_2 => contradiction
    case h_1 =>
      cases Option.some.inj hs
      exact ⟨State.same_setNode (Node.same_setPhase _ i rfl), by simp⟩
  case consume b offset =>
    simp only [machine] at hs
    split at hs
    case isFalse => contradiction
    case isTrue =>
      cases Option.some.inj hs
      exact ⟨State.same_setNode (Node.same_leading rfl), by simp⟩
  case tick d =>
    cases Option.some.inj hs
    exact ⟨⟨rfl, fun b => .refl (s.nodes b)⟩, by simp⟩
  case crash b =>
    cases Option.some.inj hs
    exact ⟨State.same_setNode (Node.same_crash _), by simp⟩

theorem short_sampleName : ([116] : Bytes).length < 2 ^ 15 := by
  decide

theorem ordinary_sampleDir : Storage.Ordinary (.join [100] [116, 45, 48]) := by
  decide +kernel

def samplePair : Setup where
  topicName  := [116]
  partition  := ⟨0, 1, [1, 2], [1, 2]⟩
  location _ := ⟨.empty, .join [100] [116, 45, 48]⟩
  short      := short_sampleName
  leader_mem := by decide
  isr_subset := by decide
  ordinary _ := ordinary_sampleDir

end Network.Cluster
