import Gokaf.Compatible
import Gokaf.Network.Theorems.MetadataCluster
import Gokaf.Network.Theorems.Registry

open Go Protocol Cluster

-- The metadata logs of brokers of which the next one becomes the controller when the controller crashes.
namespace Network.MetadataCluster

-- The number of payloads that a round has still to take off an answer.
def remaining : Round → Nat
  | .reading count _ | .applying _ count _ => count.toNat
  | .idle | .asking ..                     => 0

-- No broker that runs has a higher id.
def Highest (cluster : Membership) (s : State) (b : Int) : Prop :=
  ∀ b' ∈ cluster.ids, (s.processes b').running → b' ≤ b

-- The next step of the operation appends a record.
def Appends (p : Process) (i : Nat) : Prop :=
  ∃ task ∈ p.tasks[i]?, ∃ record next, task.progress = .append record next

-- Brokers append only while they are the highest live one and fetch from it, and do not come back.
def Succession (cluster : Membership) (s : State) : Step → Prop
  | .topics b (.step i _) => Appends (s.processes b) i → Highest cluster s b
  | .fetch _ controller   => Highest cluster s controller
  | .start _              => False
  | _                     => True

-- A record is appended only to the longest log.
def Longest (cluster : Membership) (s : State) : Step → Prop
  | .topics b (.step i _) => Appends (s.processes b) i → ∀ b' ∈ cluster.ids, b' ≠ b → (s.processes b').running →
    (s.processes b').log.endOffset + remaining (s.processes b').round ≤ (s.processes b).log.endOffset
  | _ => True

-- The logs of two live brokers hold the same record at every offset that both have.
def Match (s : State) : Prop :=
  ∀ b b', (s.processes b).running → (s.processes b').running →
    ∃ L L', (s.processes b).log.entries = .ok L ∧ (s.processes b').log.entries = .ok L' ∧
      ∀ (i : Nat) (p p' : Bytes), L[i]? = some p → L'[i]? = some p' → p = p'

-- What a round may still append, with no more payloads than it has still to take.
inductive Carries (len : Nat) : Round → List Bytes → Prop
  | idle : Carries len .idle []
  | asking {controller next : Int} {ps : List Bytes} :
    next = len + ps.length → Carries len (.asking controller next ps) ps
  | reading {count : Int} {rest : Bytes} {ps : List Bytes} :
    rest <+: writeRest ps → Carries len (.reading count rest) (ps.take count.toNat)
  | applying {payload : Option Bytes} {count : Int} {rest : Bytes} {ps : List Bytes} :
    rest <+: writeRest ps → Carries len (.applying payload count rest) (ps.take count.toNat)

variable {cluster : Membership} {dirs : Int → Storage.Location} {s s' : State} {b : Int} {p : Process} {n len : Nat}
  {a : Step} {as : List Step} {os o : List Unit} {logs brings : Int → List Bytes} {L B ps : List Bytes} {round : Round}

theorem exists_carries (h : Brings len round ps) : ∃ ps', ps' <+: ps ∧ Carries len round ps' := by
  cases h
  case idle          => exact ⟨[], List.nil_prefix, .idle⟩
  case asking hnext  => exact ⟨ps, List.prefix_refl ps, .asking hnext⟩
  case reading hrest => exact ⟨_, List.take_prefix .., .reading hrest⟩
  case applying hrest => exact ⟨_, List.take_prefix .., .applying hrest⟩

-- A broker whose log holds the payloads `L` and whose round may still append the payloads `B`.
structure Holds (s : State) (cluster : Membership) (logs : Int → List Bytes) (b : Int) (p : Process)
    (L B : List Bytes) :
    Prop where
  stores  : p.log.Stores L
  small   : ∀ payload ∈ L ++ B, payload.length < 2 ^ 31
  member  : p.running → b ∈ cluster.ids
  stopped : p.running = false → p.round = .idle
  carries : Carries L.length p.round B
  asking  : ∀ controller next ps, p.round = .asking controller next ps →
    (s.processes controller).running ∧ Highest cluster s controller ∧ controller ≠ b ∧
      (ps ≠ [] → L ++ ps <+: logs controller)

structure Succeeds (cluster : Membership) (n : Nat) (s : State) (logs brings : Int → List Bytes) : Prop where
  length_le  : ∀ b, (logs b).length ≤ n
  holds      : ∀ b, Holds s cluster logs b (s.processes b) (logs b) (brings b)
  compatible : ∀ b b', (s.processes b).running → (s.processes b').running →
    Compatible (logs b ++ brings b) (logs b' ++ brings b')

theorem Succeeds.matched (h : Succeeds cluster n s logs brings) : Match s := by
  intro b b' hb hb'
  refine ⟨_, _, (h.holds b).stores.refines.entries, (h.holds b').stores.refines.entries, fun i p p' hp hp' => ?_⟩
  exact ((h.compatible b b' hb hb').mono (List.prefix_append ..) (List.prefix_append ..)).eq_of_getElem? hp hp'

theorem succeeds_init (cluster : Membership) : Succeeds cluster 0 (.init cluster) (fun _ => []) fun _ => [] where
  length_le _ := Nat.le_refl 0
  holds b     := {
    stores  := Storage.Log.empty_stores
    small   := by simp
    member  := by simp [State.init, Process.new]
    stopped := fun _ => rfl
    carries := .idle
    asking  := by simp [State.init, Process.new]
  }
  compatible _ _ _ _ := .refl []

theorem Holds.mono {logs' : Int → List Bytes} (h : Holds s cluster logs b p L B)
    (hrunning : ∀ c, (s'.processes c).running = (s.processes c).running) (hlogs : ∀ c, logs c <+: logs' c) :
    Holds s' cluster logs' b p L B where
  stores  := h.stores
  small   := h.small
  member  := h.member
  stopped := h.stopped
  carries := h.carries
  asking c next ps hround := by
    obtain ⟨hc, hhighest, hne, hps⟩ := h.asking c next ps hround
    refine ⟨(hrunning c).trans hc, fun b' hb' hrun => hhighest b' hb' ((hrunning b').symm.trans hrun), hne,
      fun hnil => ?_⟩
    exact (hps hnil).trans (hlogs c)

theorem Holds.running_of_round (h : Holds s cluster logs b p L B) (hround : p.round ≠ .idle) : p.running = true := by
  by_contra hnot
  exact hround (h.stopped (by simpa using hnot))

-- What the crash of a broker leaves of each.
structure Stopped (s : State) (b b' : Int) : Prop where
  log     : ((s.stop b).processes b').log = (s.processes b').log
  running : ((s.stop b).processes b').running ↔ (s.processes b').running ∧ b' ≠ b
  round   : ((s.stop b).processes b').round = .idle ∨ b' ≠ b ∧
    ((s.stop b).processes b').round = (s.processes b').round ∧ ∀ next ps, (s.processes b').round ≠ .asking b next ps

theorem stopped (s : State) (b b' : Int) : Stopped s b b' := by
  by_cases hb' : b' = b
  case pos =>
    subst hb'
    have heq : (s.stop b').processes b' = (s.processes b').stop := Function.update_self ..
    constructor <;> rw [heq] <;> simp [Process.stop]
  case neg =>
    have heq : (s.stop b).processes b' = (s.processes b').disconnect b := by
      simp [State.stop, hb']
    have hcases : (s.processes b').disconnect b = { s.processes b' with round := .idle } ∨
        (s.processes b').disconnect b = s.processes b' ∧ ∀ next ps, (s.processes b').round ≠ .asking b next ps := by
      unfold Process.disconnect
      split
      case h_1 controller next ps hround =>
        split
        case isTrue     => exact .inl rfl
        case isFalse hne => exact .inr ⟨rfl, fun _ _ heq => hne (by rw [hround] at heq; cases heq; rfl)⟩
      case h_2 hround => exact .inr ⟨rfl, fun next ps heq => hround b next ps heq⟩
    rcases hcases with hidle | ⟨hsame, hround⟩
    · constructor <;> rw [heq, hidle] <;> simp [hb']
    · constructor <;> rw [heq, hsame] <;> simp [hb', hround]

theorem append_take_drop_isPrefix {α : Type*} {xs ys : List α} {m : Nat} (h : xs <+: ys) (hm : m = xs.length)
    (k : Nat) :
    xs ++ (ys.drop m).take k <+: ys := by
  obtain ⟨zs, rfl⟩ := h
  subst hm
  rw [List.drop_left]
  exact (List.prefix_append_right_inj _).mpr (List.take_prefix k zs)

-- What an operation does to the log.
theorem exec_log {config : Config} {broker broker' : Metadata.Broker} {step : Metadata.Step}
    {out : List Metadata.Output} (h : broker.exec config step = some (broker', out)) :
    broker'.log = broker.log ∨ ∃ i view task record next, step = .step i view ∧ broker.tasks[i]? = some task ∧
      task.progress = .append record next ∧ broker'.log = (MetadataLog.append broker.log record).fst := by
  cases step
  case call operation =>
    cases h
    exact .inl rfl
  case step i view =>
    obtain ⟨task, log, topics, task', htask, hstep, rfl, -⟩ := Metadata.exec_step h
    obtain ⟨_, hadvances⟩ := advances hstep
    generalize task'.progress = progress at hadvances
    cases hadvances
    case appended hprogress happend => exact .inr ⟨i, view, task, _, _, rfl, htask, hprogress, by rw [happend]⟩
    case failed hprogress happend   => exact .inr ⟨i, view, task, _, _, rfl, htask, hprogress, by rw [happend]⟩
    all_goals exact .inl rfl

namespace Succeeds

-- A step of one broker.
theorem set {p' : Process} (h : Succeeds cluster n s logs brings) (hrunning : p'.running = (s.processes b).running)
    (hlen : L.length ≤ n + 1) (hmono : logs b <+: L) (hholds : Holds s cluster logs b p' L B)
    (hcompatible : p'.running → ∀ b', b' ≠ b → (s.processes b').running → Compatible (L ++ B) (logs b' ++ brings b')) :
    Succeeds cluster (n + 1) (s.set b p') (Function.update logs b L) (Function.update brings b B) := by
  have hself : (s.set b p').processes b = p' := Function.update_self ..
  have hother : ∀ b', b' ≠ b → (s.set b p').processes b' = s.processes b' := fun b' hb' => Function.update_of_ne hb' ..
  have hrunning' : ∀ c, ((s.set b p').processes c).running = (s.processes c).running := by
    intro c
    by_cases hc : c = b
    case pos => rw [hc, hself, hrunning]
    case neg => rw [hother c hc]
  have hlogs : ∀ c, logs c <+: Function.update logs b L c := by
    intro c
    by_cases hc : c = b
    case pos =>
      rw [hc, Function.update_self]
      exact hmono
    case neg => rw [Function.update_of_ne hc]
  refine ⟨fun b' => ?_, fun b' => ?_, fun b₁ b₂ h₁ h₂ => ?_⟩
  · by_cases hb' : b' = b
    case pos =>
      rw [hb', Function.update_self]
      exact hlen
    case neg =>
      rw [Function.update_of_ne hb']
      exact Nat.le_succ_of_le (h.length_le b')
  · by_cases hb' : b' = b
    case pos =>
      subst hb'
      rw [hself, Function.update_self, Function.update_self]
      exact hholds.mono hrunning' hlogs
    case neg =>
      rw [hother b' hb', Function.update_of_ne hb', Function.update_of_ne hb']
      exact (h.holds b').mono hrunning' hlogs
  · rw [hrunning'] at h₁ h₂
    by_cases hb₁ : b₁ = b <;> by_cases hb₂ : b₂ = b
    · subst hb₁ hb₂
      exact .refl _
    · subst hb₁
      rw [Function.update_self, Function.update_self, Function.update_of_ne hb₂, Function.update_of_ne hb₂]
      exact hcompatible (hrunning.trans h₁) b₂ hb₂ h₂
    · subst hb₂
      rw [Function.update_self, Function.update_self, Function.update_of_ne hb₁, Function.update_of_ne hb₁]
      exact (hcompatible (hrunning.trans h₂) b₁ hb₁ h₁).symm
    · rw [Function.update_of_ne hb₁, Function.update_of_ne hb₁, Function.update_of_ne hb₂, Function.update_of_ne hb₂]
      exact h.compatible b₁ b₂ h₁ h₂

-- A step that appends nothing. The round may only have less to append than before.
theorem setRound {p' : Process} (h : Succeeds cluster n s logs brings) (hlog : p'.log = (s.processes b).log)
    (hrunning : p'.running = (s.processes b).running) (hstopped : p'.running = false → p'.round = .idle)
    (hcarries : Carries (logs b).length p'.round B) (hB : B <+: brings b)
    (hasking : ∀ controller next ps, p'.round = .asking controller next ps →
      (s.processes controller).running ∧ Highest cluster s controller ∧ controller ≠ b ∧
        (ps ≠ [] → logs b ++ ps <+: logs controller)) :
    Succeeds cluster (n + 1) (s.set b p') (Function.update logs b (logs b)) (Function.update brings b B) := by
  have hb := h.holds b
  refine h.set hrunning (Nat.le_succ_of_le (h.length_le b)) (List.prefix_refl _) ⟨hlog ▸ hb.stores, ?_, ?_, hstopped,
    hcarries, hasking⟩ fun hrun b' hb' hrun' => ?_
  · intro payload hmem
    exact hb.small payload (((List.prefix_append_right_inj _).mpr hB).subset hmem)
  · exact fun hrun => hb.member (hrunning ▸ hrun)
  · exact (h.compatible b b' (hrunning ▸ hrun) hrun').mono ((List.prefix_append_right_inj _).mpr hB)
      (List.prefix_refl _)

-- The one that is asked is the highest live broker.
theorem eq_of_asking {controller next : Int} (h : Succeeds cluster n s logs brings) (hb : (s.processes b).running)
    (hhighest : Highest cluster s b) {f : Int} (hround : (s.processes f).round = .asking controller next ps) :
    controller = b ∧ controller ≠ f := by
  obtain ⟨hc, hhighest', hne, _⟩ := (h.holds f).asking _ _ _ hround
  have hle  := hhighest controller ((h.holds controller).member hc) hc
  have hle' := hhighest' b ((h.holds b).member hb) hb
  exact ⟨by omega, hne⟩

-- What a broker may still append fits into the log of the highest one, if this one is the longest.
theorem isPrefix_of_longest (h : Succeeds cluster n s logs brings) (hb : (s.processes b).running)
    (hhighest : Highest cluster s b) {f : Int} (hf : (s.processes f).running)
    (hle : (s.processes f).log.endOffset + remaining (s.processes f).round ≤ (s.processes b).log.endOffset) :
    logs f ++ brings f <+: logs b := by
  have hcompatible : Compatible (logs f ++ brings f) (logs b) → (logs f).length + (brings f).length ≤ (logs b).length →
      logs f ++ brings f <+: logs b := fun hc hle => hc.isPrefix_of_length_le (by simpa using hle)
  have hcompatible' := (h.compatible f b hf hb).mono (List.prefix_refl _) (List.prefix_append ..)
  rw [(h.holds f).stores.endOffset, (h.holds b).stores.endOffset] at hle
  have hcarries := (h.holds f).carries
  cases hround : (s.processes f).round <;> rw [hround] at hcarries hle
  case asking controller next ps =>
    obtain ⟨rfl, _⟩ := h.eq_of_asking hb hhighest hround
    obtain ⟨_, _, _, hps⟩ := (h.holds f).asking _ _ _ hround
    generalize hB : brings f = B at *
    cases hcarries
    case asking =>
      by_cases hnil : ps = []
      case neg => exact hps hnil
      case pos => exact hcompatible hcompatible' (by simp [hnil, remaining] at hle ⊢; omega)
  all_goals
    generalize hB : brings f = B at *
    cases hcarries
    exact hcompatible hcompatible' (by simp [remaining] at hle ⊢; omega)

theorem append {payload : Bytes} {p' : Process} (h : Succeeds cluster n s logs brings) (hb : (s.processes b).running)
    (hhighest : Highest cluster s b)
    (hlongest : ∀ b' ∈ cluster.ids, b' ≠ b → (s.processes b').running →
      (s.processes b').log.endOffset + remaining (s.processes b').round ≤ (s.processes b).log.endOffset)
    (hsmall : payload.length < 2 ^ 31) (hlog : p'.log.Stores (logs b ++ [payload]))
    (hround : p'.round = (s.processes b).round) (hrunning : p'.running = (s.processes b).running) :
    Succeeds cluster (n + 1) (s.set b p') (Function.update logs b (logs b ++ [payload]))
      (Function.update brings b (brings b)) := by
  have hholds := h.holds b
  have hnot : ∀ controller next ps, (s.processes b).round ≠ .asking controller next ps := by
    intro controller next ps heq
    obtain ⟨rfl, hne⟩ := h.eq_of_asking hb hhighest heq
    exact hne rfl
  have hcarries : Carries (logs b ++ [payload]).length (s.processes b).round (brings b) := by
    cases hr : (s.processes b).round <;> have hcarries := hr ▸ hholds.carries
    case asking => exact absurd hr (hnot _ _ _)
    all_goals
      generalize brings b = B at hcarries
      cases hcarries
      constructor <;> assumption
  have hpre : ∀ b', b' ≠ b → (s.processes b').running → logs b' ++ brings b' <+: logs b := fun b' hb' hrun =>
    h.isPrefix_of_longest hb hhighest hrun (hlongest b' ((h.holds b').member hrun) hb' hrun)
  have hlen := h.length_le b
  refine h.set hrunning (by simp; omega) (List.prefix_append ..) ⟨hlog, ?_, fun _ => hholds.member hb, ?_, ?_, ?_⟩
    fun _ b' hb' hrun => ?_
  · intro q hq
    simp only [List.mem_append, List.mem_singleton] at hq
    rcases hq with (hq | rfl) | hq
    · exact hholds.small q (List.mem_append_left _ hq)
    · exact hsmall
    · exact hholds.small q (List.mem_append_right _ hq)
  · rw [hrunning, hround]
    exact hholds.stopped
  · rw [hround]
    exact hcarries
  · rw [hround]
    exact fun controller next ps heq => absurd heq (hnot controller next ps)
  · refine .inr ((hpre b' hb' hrun).trans ?_)
    rw [List.append_assoc]
    exact List.prefix_append ..

theorem topics {step : Metadata.Step} (h : Succeeds cluster n s logs brings) (hn : n + 1 < 2 ^ 63)
    (hc : Succession cluster s (.topics b step)) (hl : Longest cluster s (.topics b step))
    (hsmall : SmallRecords s (.topics b step)) (hs : (machine cluster dirs).step s (.topics b step) = some (s', o)) :
    ∃ logs brings, Succeeds cluster (n + 1) s' logs brings := by
  simp only [machine] at hs
  split at hs
  case isFalse => contradiction
  case isTrue hrun =>
    obtain ⟨⟨broker, out⟩, hexec, hs⟩ := Option.map_eq_some_iff.mp hs
    cases hs
    have hholds := h.holds b
    rcases exec_log hexec with hlog | ⟨i, view, task, record, next, rfl, htask, hprogress, hlog⟩
    · exact ⟨_, _, h.setRound hlog rfl hholds.stopped hholds.carries (List.prefix_refl _) hholds.asking⟩
    · have happends : Appends (s.processes b) i := ⟨task, htask, record, next, hprogress⟩
      have hsmall : (encodeMetadataRecord record).length < 2 ^ 31 := by
        have hrecord : SmallRecord task.progress := hsmall task htask
        rwa [hprogress] at hrecord
      obtain ⟨log', happend, hstores⟩ := hholds.stores.append (p := encodeMetadataRecord record) (by omega)
        (by have := h.length_le b; omega)
      rw [MetadataLog.append, happend] at hlog
      exact ⟨_, _, h.append hrun (hc happends) (hl happends) hsmall (hlog ▸ hstores) rfl rfl⟩

theorem fetch {f controller : Int} (h : Succeeds cluster n s logs brings) (hc : Highest cluster s controller)
    (hs : (machine cluster dirs).step s (.fetch f controller) = some (s', o)) :
    ∃ logs brings, Succeeds cluster (n + 1) s' logs brings := by
  simp only [machine] at hs
  split at hs
  case isFalse => contradiction
  case isTrue hguard =>
    cases Option.some.inj hs
    obtain ⟨hrun, hidle, hne, hrun'⟩ := hguard
    refine ⟨_, _, h.setRound rfl rfl ?_ (.asking ?_) List.nil_prefix ?_⟩
    · simp [hrun]
    · rw [(h.holds f).stores.endOffset]
      simp
    · rintro _ _ _ heq
      cases heq
      exact ⟨hrun', hc, hne, by simp⟩

-- The answer of the highest broker is a part of its log.
theorem serve {f : Int} (h : Succeeds cluster n s logs brings)
    (hs : (machine cluster dirs).step s (.serve f) = some (s', o)) :
    ∃ logs brings, Succeeds cluster (n + 1) s' logs brings := by
  simp only [machine] at hs
  split at hs
  case h_2 => contradiction
  case h_1 controller next ps hround =>
    cases Option.some.inj hs
    have hholds := h.holds f
    obtain ⟨hc, hhighest, hne, hps⟩ := hholds.asking _ _ _ hround
    have hcarries := hholds.carries
    rw [hround] at hcarries
    have hB : brings f = ps ∧ next = (logs f).length + ps.length := by
      generalize brings f = B at hcarries
      cases hcarries
      exact ⟨rfl, by assumption⟩
    have hrun : (s.processes f).running = true := hholds.running_of_round (by simp [hround])
    have hasked : Brings (logs f).length (.asking controller next ps) ps := .asking hB.right
    obtain ⟨ps', hbrings, hcases⟩ := brings_serve hasked (h.holds controller).stores
    obtain ⟨ps'', hps'', hcarries'⟩ := exists_carries hbrings
    -- Whatever the round brings is taken from the log of the controller.
    have hpart : ps'' ≠ [] → logs f ++ ps'' <+: logs controller := by
      intro hnil
      refine ((List.prefix_append_right_inj _).mpr hps'').trans ?_
      rcases hcases with rfl | rfl | ⟨hlt, k, rfl⟩
      · exact absurd (List.prefix_nil.mp hps'') hnil
      · exact hps fun heq => hnil (List.prefix_nil.mp (heq ▸ hps''))
      · have hasked : logs f ++ ps <+: logs controller := by
          have hcompatible := (h.compatible f controller hrun hc).mono (List.prefix_refl _) (List.prefix_append ..)
          rw [hB.left] at hcompatible
          exact hcompatible.isPrefix_of_length_le (by simp; omega)
        rw [← List.append_assoc]
        exact append_take_drop_isPrefix hasked (by simp) k
    refine ⟨_, _, h.set rfl (Nat.le_succ_of_le (h.length_le f)) (List.prefix_refl _)
      ⟨hholds.stores, ?_, hholds.member, ?_, hcarries', ?_⟩ fun _ b' hb' hrun' => ?_⟩
    · intro payload hmem
      by_cases hnil : ps'' = []
      case pos => exact hholds.small payload (List.mem_append_left _ (by simpa [hnil] using hmem))
      case neg => exact (h.holds controller).small payload (List.mem_append_left _ ((hpart hnil).subset hmem))
    · simp [hrun]
    · intro controller' next' ps₁ heq
      have hround' : Round.serve (s.processes controller).log controller next ps = .asking controller' next' ps₁ := heq
      rw [hround'] at hcarries'
      have hsame : controller' = controller := by
        rcases serve_cases (s.processes controller).log controller next ps with hs | ⟨_, _, hs⟩ | ⟨_, _, hs⟩ <;>
          rw [hs] at hround' <;> cases hround'
        rfl
      subst hsame
      cases hcarries'
      exact ⟨hc, hhighest, hne, hpart⟩
    · by_cases hnil : ps'' = []
      case pos =>
        rw [hnil, List.append_nil]
        exact (h.compatible f b' hrun hrun').mono (List.prefix_append ..) (List.prefix_refl _)
      case neg =>
        exact (h.compatible controller b' hc hrun').mono ((hpart hnil).trans (List.prefix_append ..))
          (List.prefix_refl _)

-- The round is over.
theorem endRound {f : Int} (h : Succeeds cluster n s logs brings) :
    ∃ logs brings, Succeeds cluster (n + 1) (s.set f { s.processes f with round := .idle }) logs brings :=
  ⟨_, _, h.setRound rfl rfl (fun _ => rfl) .idle List.nil_prefix (by simp)⟩

theorem receive {f : Int} (h : Succeeds cluster n s logs brings) (hn : n + 1 < 2 ^ 63)
    (hs : (machine cluster dirs).step s (.receive f) = some (s', o)) :
    ∃ logs brings, Succeeds cluster (n + 1) s' logs brings := by
  simp only [machine] at hs
  split at hs
  case h_2 => contradiction
  case h_1 count rest hround =>
    cases Option.some.inj hs
    have hholds := h.holds f
    have hlen := h.length_le f
    have hcarries := hholds.carries
    rw [hround] at hcarries
    obtain ⟨full, hrest, hB⟩ : ∃ full, rest <+: writeRest full ∧ brings f = full.take count.toNat := by
      generalize brings f = B at hcarries
      cases hcarries
      exact ⟨_, by assumption, rfl⟩
    have hrun : (s.processes f).running = true := hholds.running_of_round (by simp [hround])
    by_cases hcount : count ≤ 0
    case pos =>
      simp only [Round.receive, if_pos hcount]
      exact h.endRound
    case neg =>
      have hreading : Brings (logs f).length (.reading count rest) full := .reading hrest
      have hsmall : ∀ p ∈ full.head?, p.length < 2 ^ 31 := by
        intro p hp
        obtain ⟨ps, rfl⟩ : ∃ ps, full = p :: ps := ⟨_, (List.cons_head?_tail hp).symm⟩
        refine hholds.small p (List.mem_append_right _ ?_)
        obtain ⟨k, hk⟩ : ∃ k, count.toNat = k + 1 := ⟨count.toNat - 1, by omega⟩
        rw [hB, hk]
        exact List.mem_cons_self
      cases brings_receive hreading hsmall hholds.stores (by omega)
      case inl heq =>
        rw [heq]
        exact h.endRound
      case inr hreceived =>
        obtain ⟨p, ps', log', rest', rfl, hlog', hrest', _, heq⟩ := hreceived
        rw [heq]
        have hbrings : brings f = p :: ps'.take (count - 1).toNat := by
          rw [hB, show count.toNat = (count - 1).toNat + 1 by omega, List.take_succ_cons]
        refine ⟨_, _, h.set rfl (by simp; omega) (List.prefix_append ..) ⟨hlog', ?_, hholds.member, ?_,
          .applying hrest', by simp⟩ fun _ b' hb' hrun' => ?_⟩
        · intro payload hmem
          refine hholds.small payload ?_
          rw [hbrings]
          simpa using hmem
        · simp [hrun]
        · have hcompatible := h.compatible f b' hrun hrun'
          rw [hbrings] at hcompatible
          simpa using hcompatible

theorem stop (h : Succeeds cluster n s logs brings) (b : Int) :
    ∃ logs brings, Succeeds cluster (n + 1) (s.stop b) logs brings := by
  let brings' (x : Int) : List Bytes := if ((s.stop b).processes x).round = .idle then [] else brings x
  have hpart : ∀ x, brings' x <+: brings x := by
    intro x
    simp only [brings']
    split
    case isTrue  => exact List.nil_prefix
    case isFalse => exact List.prefix_refl _
  refine ⟨logs, brings', fun x => Nat.le_succ_of_le (h.length_le x), fun x => ?_, fun x y hx hy => ?_⟩
  · have hholds := h.holds x
    have hstopped := stopped s b x
    refine ⟨hstopped.log ▸ hholds.stores, ?_, fun hrun => hholds.member (hstopped.running.mp hrun).left, ?_, ?_, ?_⟩
    · intro payload hmem
      exact hholds.small payload (((List.prefix_append_right_inj _).mpr (hpart x)).subset hmem)
    · intro hrun
      rcases hstopped.round with hidle | ⟨hne, hsame, _⟩
      · exact hidle
      · rw [hsame]
        refine hholds.stopped ?_
        by_contra hnot
        rw [hstopped.running.mpr ⟨by simpa using hnot, hne⟩] at hrun
        contradiction
    · simp only [brings']
      split
      case isTrue hidle =>
        rw [hidle]
        exact .idle
      case isFalse hnot =>
        rw [(hstopped.round.resolve_left hnot).right.left]
        exact hholds.carries
    · intro controller next ps hround
      rcases hstopped.round with hidle | ⟨hne, hsame, hother⟩
      · rw [hidle] at hround
        contradiction
      · rw [hsame] at hround
        obtain ⟨hc, hhighest, hcx, hps⟩ := hholds.asking controller next ps hround
        have hcb : controller ≠ b := fun heq => hother next ps (heq ▸ hround)
        refine ⟨(stopped s b controller).running.mpr ⟨hc, hcb⟩, fun y hy hrun => ?_, hcx, hps⟩
        exact hhighest y hy ((stopped s b y).running.mp hrun).left
  · have hx := ((stopped s b x).running.mp hx).left
    have hy := ((stopped s b y).running.mp hy).left
    exact (h.compatible x y hx hy).mono ((List.prefix_append_right_inj _).mpr (hpart x))
      ((List.prefix_append_right_inj _).mpr (hpart y))

theorem apply {f : Int} (h : Succeeds cluster n s logs brings)
    (hs : (machine cluster dirs).step s (.apply f) = some (s', o)) :
    ∃ logs brings, Succeeds cluster (n + 1) s' logs brings := by
  simp only [machine] at hs
  split at hs
  case h_2 => contradiction
  case h_1 payload count rest hround =>
    have hholds := h.holds f
    have hcarries := hholds.carries
    rw [hround] at hcarries
    have hreading : Carries (logs f).length (.reading count rest) (brings f) := by
      generalize brings f = B at hcarries
      cases hcarries
      case applying hrest => exact .reading hrest
    have hrun := hholds.running_of_round (by simp [hround])
    split at hs
    case h_1 =>
      cases Option.some.inj hs
      exact ⟨_, _, h.setRound rfl rfl (by simp [hrun]) hreading (List.prefix_refl _) (by simp)⟩
    case h_2 =>
      cases Option.some.inj hs
      exact h.stop f
    case h_3 =>
      cases Option.some.inj hs
      exact h.endRound

theorem step (h : Succeeds cluster n s logs brings) (hn : n + 1 < 2 ^ 63) (hc : Succession cluster s a)
    (hl : Longest cluster s a) (hsmall : SmallRecords s a) (hs : (machine cluster dirs).step s a = some (s', o)) :
    ∃ logs brings, Succeeds cluster (n + 1) s' logs brings := by
  cases a
  case topics b step => exact h.topics hn hc hl hsmall hs
  case fetch f controller => exact h.fetch hc hs
  case serve f => exact h.serve hs
  case lose f =>
    simp only [machine] at hs
    split at hs
    case h_1 =>
      cases Option.some.inj hs
      exact h.endRound
    case h_2 => contradiction
  case receive f => exact h.receive hn hs
  case apply f => exact h.apply hs
  case stop b =>
    simp only [machine] at hs
    split at hs
    case isTrue =>
      cases Option.some.inj hs
      exact h.stop b
    case isFalse => contradiction
  case start b => exact hc.elim

end Succeeds

theorem inductive_succeeds (cluster : Membership) :
    (machine cluster dirs).InductiveUpTo (fun s a => Succession cluster s a ∧ Longest cluster s a ∧ SmallRecords s a)
      (2 ^ 63 - 1) fun n s _ => ∃ logs brings, Succeeds cluster n s logs brings where
  step hn h hc hs :=
    h.elim fun _ h => h.elim fun _ h => h.step (by omega) hc.left hc.right.left hc.right.right hs

-- The logs of the live brokers match if the one that takes over is never behind.
theorem match_of_longest (hn : as.length < 2 ^ 63)
    (hsuccession : (machine cluster dirs).Along (Succession cluster) (.init cluster) as)
    (hlongest : (machine cluster dirs).Along (Longest cluster) (.init cluster) as)
    (hsmall : (machine cluster dirs).Along SmallRecords (.init cluster) as)
    (hr : (machine cluster dirs).run (.init cluster) as = some (s, os)) : Match s := by
  obtain ⟨_, _, h⟩ := (inductive_succeeds cluster).run_nil ⟨_, _, succeeds_init cluster⟩ (by omega)
    (hsuccession.and (hlongest.and hsmall)) hr
  exact h.matched

instance (p : Process) (i : Nat) : Decidable (Appends p i) :=
  match h : p.tasks[i]? with
  | none      => isFalse fun h' => by simp [Appends, h] at h'
  | some task =>
    match hprogress : task.progress with
    | .append record next => isTrue ⟨task, h, record, next, hprogress⟩
    | .start | .scan .. | .apply .. | .done _ => isFalse fun h' => by simp [Appends, h, hprogress] at h'

instance (cluster : Membership) (s : State) (b : Int) : Decidable (Highest cluster s b) :=
  inferInstanceAs (Decidable (∀ b' ∈ cluster.ids, (s.processes b').running → b' ≤ b))

instance (cluster : Membership) (s : State) : DecidablePred (Succession cluster s) := fun a => by
  induction a using Step.casesOn
  case topics b step => induction step using Metadata.Step.casesOn <;> dsimp only [Succession] <;> infer_instance
  all_goals dsimp only [Succession]; infer_instance

instance (cluster : Membership) (s : State) : DecidablePred (Longest cluster s) := fun a => by
  induction a using Step.casesOn
  case topics b step => induction step using Metadata.Step.casesOn <;> dsimp only [Longest] <;> infer_instance
  all_goals dsimp only [Longest]; infer_instance

def sampleTrio : Membership :=
  Metadata.sampleTrio.cluster

def trioView (controllerID : Int) : View where
  controllerID := controllerID
  alive        := []
  topics       := []

-- Broker 3 creates a topic, which the follower fetches, and crashes. Broker 2 creates the next one.
def handOver (follower : Int) : List Step :=
  [.topics 3 (.call (.createTopic [116] 1 1)), .topics 3 (.step 0 (trioView 3)), .topics 3 (.step 0 (trioView 3)),
    .fetch follower 3, .serve follower, .serve follower, .receive follower, .apply follower, .stop 3,
    .topics 2 (.call (.createTopic [117] 1 1)), .topics 2 (.step 0 (trioView 2)), .topics 2 (.step 0 (trioView 2))]

-- The successor has fetched the record, and the other broker fetches both from it.
theorem match_of_longest_successor :
    let as := handOver 2 ++ [.fetch 1 2, .serve 1, .serve 1, .receive 1, .apply 1, .receive 1]
    ∃ s os, (machine sampleTrio sampleDirs).run (.init sampleTrio) as = some (s, os) ∧
      (s.processes 1).log.endOffset = 2 ∧ (s.processes 2).log.endOffset = 2 ∧ Match s := by
  intro as
  have hrun : ((machine sampleTrio sampleDirs).run (.init sampleTrio) as).map (fun r =>
      ((r.fst.processes 1).log.endOffset, (r.fst.processes 2).log.endOffset)) = some (2, 2) := by decide +kernel
  obtain ⟨⟨s, os⟩, hs, heq⟩ := Option.map_eq_some_iff.mp hrun
  obtain ⟨h₁, h₂⟩ := Prod.mk.inj heq
  exact ⟨s, os, hs, h₁, h₂, match_of_longest (by decide) (by decide +kernel) (by decide +kernel) (by decide +kernel) hs⟩

-- Only the other broker has fetched the record when the successor appends its own.
theorem staleSuccessor_not_match :
    (machine sampleTrio sampleDirs).Along (Succession sampleTrio) (.init sampleTrio) (handOver 1) ∧
      ∃ s os, (machine sampleTrio sampleDirs).run (.init sampleTrio) (handOver 1) = some (s, os) ∧ ¬Match s := by
  refine ⟨by decide +kernel, ?_⟩
  have hrun : ((machine sampleTrio sampleDirs).run (.init sampleTrio) (handOver 1)).map (fun r =>
      ((r.fst.processes 1).running && (r.fst.processes 2).running, (r.fst.processes 1).log.entries.toOption,
        (r.fst.processes 2).log.entries.toOption)) =
      some (true, some [encodeMetadataRecord ⟨.topicUpsert, [116], [⟨0, 1, [1], [1]⟩]⟩],
        some [encodeMetadataRecord ⟨.topicUpsert, [117], [⟨0, 1, [1], [1]⟩]⟩]) := by decide +kernel
  obtain ⟨⟨s, os⟩, hs, heq⟩ := Option.map_eq_some_iff.mp hrun
  simp only [Prod.mk.injEq, Bool.and_eq_true] at heq
  obtain ⟨⟨hrun₁, hrun₂⟩, h₁, h₂⟩ := heq
  refine ⟨s, os, hs, fun h => ?_⟩
  obtain ⟨L, L', hL, hL', hsame⟩ := h 1 2 hrun₁ hrun₂
  rw [hL] at h₁
  rw [hL'] at h₂
  cases Option.some.inj h₁
  cases Option.some.inj h₂
  exact absurd (hsame 0 _ _ rfl rfl) (by decide)

end Network.MetadataCluster
