import Gokaf.Cluster.Theorems.MetadataFollower
import Gokaf.Network.MetadataCluster
import Gokaf.Network.Theorems.Metadata

open Go Protocol Cluster

namespace Network.MetadataCluster

variable {cluster : Membership} {dirs : Int → Storage.Location} {controller b : Int} {s s' : State} {p p' : Process}
  {n : Nat} {a : Step} {as : List Step} {os : List Unit} {F R : List Record}

-- The broker is not between the append and the apply of a record.
def Process.Settled (p : Process) : Prop :=
  (∀ task ∈ p.tasks, task.pending? = none) ∧ ∀ payload count rest, p.round ≠ .applying payload count rest

-- The log of every broker is a part of the controller's from its beginning on, and its registry is the
-- replay of its log.
structure Agrees (controller : Int) (s : State) : Prop where
  logs       : ∀ b, ∃ L F, (s.processes controller).log.entries = .ok L ∧ (s.processes b).log.entries = .ok F ∧ F <+: L
  registries : ∀ b, (s.processes b).running → (s.processes b).Settled →
    Metadata.Broker.replay (s.processes b).log = .ok (s.processes b).topics
  topics_eq  : ∀ b b', (s.processes b).running → (s.processes b).Settled → (s.processes b').running →
    (s.processes b').Settled → (s.processes b).log.endOffset = (s.processes b').log.endOffset →
      (s.processes b).topics = (s.processes b').topics

-- All brokers take the same one for the controller. It handles one operation at a time.
def FixedController (controller : Int) (s : State) : Step → Prop
  | .topics b (.call operation) =>
    b = controller ∧ operation.Short ∧ ∀ task ∈ (s.processes b).tasks, ∃ code, task.progress = .done code
  | .fetch _ controller' => controller' = controller
  | _ => True

-- The length of a payload in an answer is written with 32 bits and read as a signed number.
def SmallRecord : Progress → Prop
  | .append record _ => (encodeMetadataRecord record).length < 2 ^ 31
  | .start | .scan .. | .apply .. | .done _ => True

def SmallRecords (s : State) : Step → Prop
  | .topics b (.step i _) => ∀ task ∈ (s.processes b).tasks[i]?, SmallRecord task.progress
  | _ => True

instance : DecidablePred fun progress : Progress => ∃ code, progress = .done code
  | .done code => isTrue ⟨code, rfl⟩
  | .start | .scan .. | .append .. | .apply .. => isFalse nofun

instance : DecidablePred SmallRecord := fun _ => by
  unfold SmallRecord
  split <;> infer_instance

instance (controller : Int) (s : State) : DecidablePred (FixedController controller s) := fun _ => by
  unfold FixedController
  split <;> infer_instance

instance (s : State) : DecidablePred (SmallRecords s) := fun _ => by
  unfold SmallRecords
  split <;> infer_instance

def Process.Pending (p : Process) (r : Record) : Prop :=
  Metadata.Pending p.tasks r ∨
    ∃ payload count rest, p.round = .applying payload count rest ∧ decodeMetadataRecord (payload.getD []) = .ok r

theorem Process.pending_of_idle (h : p.round = .idle) (r : Record) : p.Pending r ↔ Metadata.Pending p.tasks r := by
  simp [Process.Pending, h]

-- A broker whose log holds the records `F`, if the controller's holds `R`.
structure ProcessInv (controller b : Int) (p : Process) (F R : List Record) : Prop where
  stores     : p.log.Stores (F.map encodeMetadataRecord)
  isPrefix   : F <+: R
  tasks      : b ≠ controller → p.tasks = []
  idle       : b = controller → p.round = .idle
  stopped    : p.running = false → p.tasks = [] ∧ p.round = .idle
  consistent : p.running → Metadata.Consistent p.log p.topics F p.Pending
  valid      : ∀ task ∈ p.tasks, task.operation.Short ∧ task.progress.Valid
  single     : p.tasks.Pairwise fun task task' =>
    (∃ code, task.progress = .done code) ∨ ∃ code, task'.progress = .done code
  asked      : ∀ controller' next payloads, p.round = .asking controller' next payloads → controller' = controller
  brings     : ∃ ps, Brings F.length p.round ps ∧ F.map encodeMetadataRecord ++ ps <+: R.map encodeMetadataRecord
  appended   : ∀ payload count rest, p.round = .applying payload count rest →
    ∃ r ∈ F, payload = some (encodeMetadataRecord r)

theorem ProcessInv.mono {R' : List Record} (h : ProcessInv controller b p F R) (hR : R <+: R') :
    ProcessInv controller b p F R' where
  stores     := h.stores
  isPrefix   := h.isPrefix.trans hR
  tasks      := h.tasks
  idle       := h.idle
  stopped    := h.stopped
  consistent := h.consistent
  valid      := h.valid
  single     := h.single
  asked      := h.asked
  brings     :=
    have ⟨ps, hbrings, hps⟩ := h.brings
    ⟨ps, hbrings, hps.trans (hR.map _)⟩
  appended   := h.appended

-- The records that the brokers hold.
structure Inv (controller : Int) (n : Nat) (s : State) (records : Int → List Record) : Prop where
  length_le : (records controller).length ≤ n
  valid     : ∀ r ∈ records controller, r.Valid ∧ (encodeMetadataRecord r).length < 2 ^ 31
  processes : ∀ b, ProcessInv controller b (s.processes b) (records b) (records controller)

namespace ProcessInv

def Applying (round : Round) : Prop :=
  ∃ payload count rest, round = .applying payload count rest

theorem new (running : Bool) : ProcessInv controller b (.new running) [] [] where
  stores         := Storage.Log.empty_stores
  isPrefix       := List.nil_prefix
  tasks _        := rfl
  idle _         := rfl
  stopped _      := ⟨rfl, rfl⟩
  consistent _   := Metadata.Consistent.empty.congr
    (by simp [Process.Pending, Process.new, Metadata.Pending, Metadata.Broker.empty])
  valid          := nofun
  single         := .nil
  asked          := nofun
  brings         := ⟨[], .idle, List.nil_prefix⟩
  appended       := nofun

-- Only the round of a follower changes, and no record waits to be applied.
theorem setRound {round : Round} (h : ProcessInv controller b p F R) (hb : b ≠ controller) (hrunning : p.running)
    (hold : ¬Applying p.round) (hnew : ¬Applying round)
    (hasked : ∀ controller' next payloads, round = .asking controller' next payloads → controller' = controller)
    (hbrings : ∃ ps, Brings F.length round ps ∧ F.map encodeMetadataRecord ++ ps <+: R.map encodeMetadataRecord) :
    ProcessInv controller b { p with round } F R where
  stores       := h.stores
  isPrefix     := h.isPrefix
  tasks        := h.tasks
  idle heq     := absurd heq hb
  stopped hnot := absurd (hrunning.symm.trans hnot) nofun
  consistent _ := (h.consistent hrunning).congr fun r => by
    have hold : ¬∃ payload count rest, p.round = .applying payload count rest ∧
        decodeMetadataRecord (payload.getD []) = .ok r := fun ⟨payload, count, rest, heq, _⟩ =>
      hold ⟨payload, count, rest, heq⟩
    have hnew : ¬∃ payload count rest, round = .applying payload count rest ∧
        decodeMetadataRecord (payload.getD []) = .ok r := fun ⟨payload, count, rest, heq, _⟩ =>
      hnew ⟨payload, count, rest, heq⟩
    simp only [Process.Pending, hold, hnew]
  valid        := h.valid
  single       := h.single
  asked        := hasked
  brings       := hbrings
  appended payload count rest heq := absurd ⟨payload, count, rest, heq⟩ hnew

-- Only a follower that runs has a round under way.
theorem of_round (h : ProcessInv controller b p F R) (hround : p.round ≠ .idle) : b ≠ controller ∧ p.running := by
  refine ⟨fun heq => hround (h.idle heq), ?_⟩
  by_contra hnot
  exact hround (h.stopped (by simpa using hnot)).right

-- A round ends.
theorem endRound (h : ProcessInv controller b p F R) (hround : p.round ≠ .idle) (happlying : ¬Applying p.round) :
    ProcessInv controller b { p with round := .idle } F R :=
  have ⟨hb, hrunning⟩ := h.of_round hround
  h.setRound hb hrunning happlying (by simp [Applying]) nofun
    ⟨[], .idle, by simpa using h.isPrefix.map encodeMetadataRecord⟩

theorem stop (h : ProcessInv controller b p F R) : ProcessInv controller b p.stop F R where
  stores     := h.stores
  isPrefix   := h.isPrefix
  tasks _    := rfl
  idle _     := rfl
  stopped _  := ⟨rfl, rfl⟩
  consistent := nofun
  valid      := nofun
  single     := .nil
  asked      := nofun
  brings     := ⟨[], .idle, by simpa using h.isPrefix.map encodeMetadataRecord⟩
  appended   := nofun

theorem start {dir : Storage.Location} (hdir : Storage.Ordinary dir.dir) (h : ProcessInv controller b p F R)
    (hvalid : ∀ r ∈ R, r.Valid) : ProcessInv controller b (p.start dir) F R := by
  obtain ⟨log, hopen, hlog⟩ := h.stores.openFiles_close
  have hvalid : ∀ r ∈ F, r.Valid := fun r hr => hvalid r (h.isPrefix.subset hr)
  have hconsistent := Metadata.Consistent.of_stores hlog hvalid
  have hstart : p.start dir = { log, topics := replayed F, tasks := [], round := .idle, running := true } := by
    rw [Process.start, hdir.openLog_eq, hopen]
    simp only [hconsistent.replay]
  rw [hstart]
  exact {
    stores       := hlog
    isPrefix     := h.isPrefix
    tasks _      := rfl
    idle _       := rfl
    stopped      := nofun
    consistent _ := hconsistent.congr (by simp [Process.Pending, Metadata.Pending])
    valid        := nofun
    single       := .nil
    asked        := nofun
    brings       := ⟨[], .idle, by simpa using h.isPrefix.map encodeMetadataRecord⟩
    appended     := nofun
  }

theorem disconnect (h : ProcessInv controller b p F R) (b' : Int) : ProcessInv controller b (p.disconnect b') F R := by
  unfold Process.disconnect
  split
  case h_2 => exact h
  case h_1 controller' next payloads hround =>
    split
    case isFalse => exact h
    case isTrue  => exact h.endRound (by simp [hround]) (by simp [Applying, hround])

-- The next record of the controller's log, if a round brings it.
theorem exists_next {payload : Bytes} {ps : List Bytes} (hF : F <+: R)
    (h : F.map encodeMetadataRecord ++ payload :: ps <+: R.map encodeMetadataRecord) :
    ∃ r, encodeMetadataRecord r = payload ∧ F ++ [r] <+: R := by
  have ⟨rest, hrest⟩ := hF
  subst hrest
  rw [List.map_append, List.prefix_append_right_inj] at h
  cases rest
  case nil => simp at h
  case cons r rest =>
    have ⟨heq, _⟩ := List.cons_prefix_cons.mp h
    exact ⟨r, heq.symm, by simp⟩

theorem receive {count : Int} {rest : Bytes} (h : ProcessInv controller b p F R)
    (hround : p.round = .reading count rest)
    (hvalid : ∀ r ∈ R, r.Valid ∧ (encodeMetadataRecord r).length < 2 ^ 31) (hlen : R.length < 2 ^ 63 - 1) :
    ∃ F', ProcessInv controller b
      { p with log := (Round.receive p.log count rest).fst, round := (Round.receive p.log count rest).snd } F' R := by
  have ⟨hb, hrunning⟩ := h.of_round (by simp [hround])
  have ⟨ps, hbrings, hps⟩ := h.brings
  have hsmall : ∀ payload ∈ ps, payload.length < 2 ^ 31 := by
    intro payload hmem
    have ⟨r, hr, heq⟩ := List.mem_map.mp (hps.subset (List.mem_append_right _ hmem))
    exact heq ▸ (hvalid r hr).right
  have hle := h.isPrefix.length_le
  rw [hround] at hbrings
  cases brings_receive hbrings (fun p hp => hsmall p (List.mem_of_mem_head? hp)) h.stores
    (by rw [List.length_map]; omega)
  case inl heq =>
    rw [heq]
    exact ⟨F, h.endRound (by simp [hround]) (by simp [Applying, hround])⟩
  case inr hreceived =>
    obtain ⟨payload, ps', log', rest', hcons, hlog, hrest, _, heq⟩ := hreceived
    subst hcons
    have ⟨r, hr, hnext⟩ := exists_next h.isPrefix hps
    subst hr
    have hmem : r ∈ R := hnext.subset (by simp)
    have hdecode := decode_encodeMetadataRecord (hvalid r hmem).left (by have := (hvalid r hmem).right; omega)
    rw [heq]
    exact ⟨F ++ [r], {
      stores       := by simpa using hlog
      isPrefix     := hnext
      tasks        := h.tasks
      idle heq     := absurd heq hb
      stopped hnot := absurd (hrunning.symm.trans hnot) nofun
      consistent _ := (h.consistent hrunning).append (by simpa using hlog) (hvalid r hmem).left
        (fun r' hr' => by simp [Process.Pending, hround, h.tasks hb, Metadata.Pending] at hr')
        fun r' => by simp [Process.Pending, hround, h.tasks hb, Metadata.Pending, hdecode, eq_comm]
      valid        := h.valid
      single       := h.single
      asked        := nofun
      brings       := ⟨ps', .applying hrest, by simpa using hps⟩
      appended payload count rest heq := ⟨r, by simp, by cases heq; rfl⟩
    }⟩

theorem apply {payload : Option Bytes} {count : Int} {rest : Bytes} (h : ProcessInv controller b p F R)
    (hround : p.round = .applying payload count rest)
    (hvalid : ∀ r ∈ R, r.Valid ∧ (encodeMetadataRecord r).length < 2 ^ 31) :
    ∃ record, decodeMetadataRecord (payload.getD []) = .ok record ∧
      ProcessInv controller b { p with topics := applyMetadataRecord p.topics record, round := .reading count rest }
        F R := by
  have ⟨hb, hrunning⟩ := h.of_round (by simp [hround])
  have ⟨r, hr, heq⟩ := h.appended payload count rest hround
  have ⟨hr, hsize⟩ := hvalid r (h.isPrefix.subset hr)
  have hdecode := decode_encodeMetadataRecord hr (by omega)
  have ⟨ps, hbrings, hps⟩ := h.brings
  subst heq
  refine ⟨r, hdecode, {
    stores       := h.stores
    isPrefix     := h.isPrefix
    tasks        := h.tasks
    idle heq     := absurd heq hb
    stopped hnot := absurd (hrunning.symm.trans hnot) nofun
    consistent _ := (h.consistent hrunning).apply hr fun r' => by
      simp [Process.Pending, hround, h.tasks hb, Metadata.Pending, hdecode, eq_comm]
    valid        := h.valid
    single       := h.single
    asked        := nofun
    brings       := ?_
    appended     := nofun
  }⟩
  rw [hround] at hbrings
  cases hbrings
  case applying hrest => exact ⟨ps, .reading hrest, hps⟩

theorem serve {next : Int} {payloads : List Bytes} {log : Storage.Log} (h : ProcessInv controller b p F R)
    (hround : p.round = .asking controller next payloads) (hlog : log.Stores (R.map encodeMetadataRecord)) :
    ProcessInv controller b { p with round := Round.serve log controller next payloads } F R := by
  have ⟨hb, hrunning⟩ := h.of_round (by simp [hround])
  have ⟨ps, hbrings, hps⟩ := h.brings
  rw [hround] at hbrings
  have heq : ps = payloads := by
    cases hbrings
    rfl
  subst heq
  have ⟨ps', hbrings', hps'⟩ := brings_serve hbrings hlog
  refine h.setRound hb hrunning (by simp [Applying, hround]) ?_ (fun controller' next' payloads' hasking => ?_)
    ⟨ps', hbrings', ?_⟩
  · rcases serve_cases log controller next ps with heq | ⟨_, _, heq⟩ | ⟨_, _, heq⟩ <;> simp [Applying, heq]
  · rcases serve_cases log controller next ps with heq | ⟨_, _, heq⟩ | ⟨_, _, heq⟩ <;> rw [heq] at hasking <;>
      cases hasking
    rfl
  · rcases hps' with heq | heq | ⟨_, k, heq⟩
    case inl => simpa [heq] using h.isPrefix.map encodeMetadataRecord
    case inr.inl => rwa [heq]
    case inr.inr =>
      have ⟨rest, hrest⟩ := hps
      rw [heq, ← List.append_assoc, ← hrest, List.drop_left' (by simp)]
      exact (List.prefix_append_right_inj _).mpr (List.take_prefix ..)

-- A new operation on a controller that has none to do.
theorem call {operation : Operation} (h : ProcessInv controller controller p R R) (hrunning : p.running)
    (hshort : operation.Short) (hdone : ∀ task ∈ p.tasks, ∃ code, task.progress = .done code) :
    ProcessInv controller controller { p with tasks := p.tasks ++ [⟨operation, .start⟩] } R R where
  stores       := h.stores
  isPrefix     := h.isPrefix
  tasks hne    := absurd rfl hne
  idle         := h.idle
  stopped hnot := absurd (hrunning.symm.trans hnot) nofun
  consistent _ := (h.consistent hrunning).congr fun r => by
    simp [Process.Pending, Metadata.Pending, or_and_right, exists_or, Task.pending?]
  valid        := List.forall_mem_append.mpr ⟨h.valid, by simpa [Progress.Valid] using hshort⟩
  single       := List.pairwise_append.mpr ⟨h.single, List.pairwise_singleton .., fun task htask _ _ =>
    .inl (hdone task htask)⟩
  asked        := h.asked
  brings       := h.brings
  appended     := h.appended

-- The next step of the operation that the controller is at.
theorem advance {task task' : Task} {view : View} {i : Nat} {log : Storage.Log} {topics : Topic.Registry}
    (h : ProcessInv controller controller p R R) (hrunning : p.running) (hlen : R.length + 1 < 2 ^ 63)
    (htask : p.tasks[i]? = some task)
    (hsmall : SmallRecord task.progress)
    (hstep : task.step ⟨controller, cluster⟩ view p.log p.topics = some (log, topics, task')) :
    ∃ R', ProcessInv controller controller { p with log, topics, tasks := p.tasks.set i task' } R' R' ∧
      (R' = R ∨ ∃ record, record.Valid ∧ (encodeMetadataRecord record).length < 2 ^ 31 ∧ R' = R ++ [record]) := by
  obtain ⟨hoperation, ha⟩ := advances hstep
  have hperm := perm_cons_eraseIdx htask
  have hperm' := perm_set htask task'
  have hmem := List.mem_of_getElem? htask
  obtain ⟨hshort, hvalid⟩ := h.valid task hmem
  have hround := h.idle rfl
  have hsymm : ∀ t t' : Task, ((∃ code, t.progress = .done code) ∨ ∃ code, t'.progress = .done code) →
      (∃ code, t'.progress = .done code) ∨ ∃ code, t.progress = .done code := fun _ _ => Or.symm
  obtain ⟨hsingle, hothers⟩ := List.pairwise_cons.mp (hperm.pairwise h.single (hsymm _ _))
  -- The operation is not done yet, so all others are.
  have hdone : ∀ other ∈ p.tasks.eraseIdx i, ∃ code, other.progress = .done code := by
    intro other hother
    cases hsingle other hother
    case inr hdone => exact hdone
    case inl hdone =>
      obtain ⟨code, hcode⟩ := hdone
      exact absurd hcode (ha.not_done code)
  have hquiet : ∀ r, ¬Metadata.Pending (p.tasks.eraseIdx i) r := by
    rintro r ⟨other, hother, hpending⟩
    obtain ⟨code, hcode⟩ := hdone other hother
    simp [Task.pending?, hcode] at hpending
  have hconsistent : Metadata.Consistent p.log p.topics R (Metadata.Pending (task :: p.tasks.eraseIdx i)) :=
    (h.consistent hrunning).congr fun r => by
      rw [Process.pending_of_idle hround]
      simp [Metadata.Pending, hperm.mem_iff]
  have hsize : ∀ record next, task.progress = .append record next → (encodeMetadataRecord record).length < 2 ^ 31 := by
    intro record next hprogress
    rwa [hprogress] at hsmall
  obtain ⟨R', hconsistent', hR'⟩ := hconsistent.advance hvalid hlen
    (fun record next hprogress => ⟨by have := hsize record next hprogress; omega, fun r hr => absurd hr (hquiet r)⟩) ha
  refine ⟨R', {
    stores       := hconsistent'.stores
    isPrefix     := List.prefix_rfl
    tasks hne    := absurd rfl hne
    idle         := h.idle
    stopped hnot := by simp [hrunning] at hnot
    consistent _ := hconsistent'.congr fun r => by
      rw [← hoperation]
      refine (Process.pending_of_idle ?_ r).trans ?_
      · exact hround
      · simp [Metadata.Pending, hperm'.mem_iff]
    valid        := fun t ht => ?_
    single       := ?_
    asked        := h.asked
    brings       := ⟨[], hround ▸ .idle, by simp⟩
    appended     := by simp [hround]
  }, ?_⟩
  · cases List.mem_cons.mp (hperm'.mem_iff.mp ht)
    case inl heq => exact heq ▸ ⟨hoperation ▸ hshort, (ha.valid hshort hvalid hconsistent.registry).left⟩
    case inr ht  => exact h.valid t (List.mem_of_mem_eraseIdx ht)
  · exact hperm'.symm.pairwise (List.pairwise_cons.mpr ⟨fun t ht => .inr (hdone t ht), hothers⟩) (hsymm _ _)
  · cases hR'
    case inl heq => exact .inl heq
    case inr happended =>
      obtain ⟨record, next, hprogress, heq⟩ := happended
      rw [hprogress] at hvalid
      exact .inr ⟨record, hvalid.left, hsize record next hprogress, heq⟩

end ProcessInv

namespace Inv

variable {records : Int → List Record}

theorem init (cluster : Membership) (controller : Int) : Inv controller 0 (.init cluster) fun _ => [] where
  length_le   := Nat.le_refl 0
  valid       := nofun
  processes _ := .new _

-- One broker changes, and with it the controller's records if it is the controller.
theorem set {R : List Record} (h : Inv controller n s records) (hp : ProcessInv controller b p F R)
    (hR : records controller <+: R) (heq : b = controller → F = R) (hne : b ≠ controller → R = records controller)
    (hlen : R.length ≤ n + 1) (hvalid : ∀ r ∈ R, r.Valid ∧ (encodeMetadataRecord r).length < 2 ^ 31) :
    ∃ records', Inv controller (n + 1) (s.set b p) records' := by
  have hcontroller : Function.update records b F controller = R := by
    by_cases hb : b = controller
    case pos => rw [hb, Function.update_self, heq hb]
    case neg => rw [Function.update_of_ne (Ne.symm hb), hne hb]
  refine ⟨Function.update records b F, hcontroller ▸ hlen, hcontroller ▸ hvalid, fun b' => ?_⟩
  rw [hcontroller]
  by_cases hb : b' = b
  case pos =>
    subst hb
    simpa only [State.set, Function.update_self] using hp
  case neg =>
    simp only [State.set, Function.update_of_ne hb]
    exact (h.processes b').mono hR

-- A broker changes and the controller's records do not.
theorem set_of_same (h : Inv controller n s records) (hp : ProcessInv controller b p F (records controller))
    (heq : b = controller → F = records controller) : ∃ records', Inv controller (n + 1) (s.set b p) records' :=
  h.set hp List.prefix_rfl heq (fun _ => rfl) (Nat.le_succ_of_le h.length_le) h.valid

theorem topics {step : Metadata.Step} (h : Inv controller n s records) (hn : n + 1 < 2 ^ 63)
    (hfixed : FixedController controller s (.topics b step)) (hsmall : SmallRecords s (.topics b step))
    (hs : (machine cluster dirs).step s (.topics b step) = some (s', os)) :
    ∃ records', Inv controller (n + 1) s' records' := by
  have hle := h.length_le
  have hp := h.processes b
  simp only [machine] at hs
  split at hs
  case isFalse => contradiction
  case isTrue hrunning =>
    obtain ⟨⟨broker, out⟩, hexec, heq⟩ := Option.map_eq_some_iff.mp hs
    cases heq
    cases step
    case call operation =>
      obtain ⟨hb, hshort, hdone⟩ := hfixed
      subst hb
      cases Option.some.inj hexec
      exact h.set_of_same (hp.call hrunning hshort hdone) fun _ => rfl
    case step i view =>
      obtain ⟨task, log, topics, task', htask, hstep, rfl, rfl⟩ := Metadata.exec_step hexec
      by_cases hb : b = controller
      case neg =>
        rw [hp.tasks hb] at htask
        contradiction
      case pos =>
        subst hb
        obtain ⟨R', hp', hR'⟩ := hp.advance hrunning (by omega) htask (hsmall task htask) hstep
        cases hR'
        case inl heq =>
          subst heq
          exact h.set_of_same hp' fun _ => rfl
        case inr happended =>
          obtain ⟨record, hrecord, hsize, heq⟩ := happended
          subst heq
          exact h.set hp' (List.prefix_append ..) (fun _ => rfl) (fun hne => absurd rfl hne) (by simpa using hle)
            (List.forall_mem_append.mpr ⟨h.valid, by simpa using ⟨hrecord, hsize⟩⟩)

theorem step (hdirs : ∀ b, Storage.Ordinary (dirs b).dir) (h : Inv controller n s records) (hn : n + 1 < 2 ^ 63)
    (hfixed : FixedController controller s a)
    (hsmall : SmallRecords s a) (hs : (machine cluster dirs).step s a = some (s', os)) :
    ∃ records', Inv controller (n + 1) s' records' := by
  have hle := h.length_le
  cases a
  case topics b step => exact h.topics hn hfixed hsmall hs
  case fetch b controller' =>
    cases hfixed
    have hp := h.processes b
    simp only [machine] at hs
    split at hs
    case isFalse => contradiction
    case isTrue hc =>
      have ⟨hrunning, hidle, hne, _⟩ := hc
      cases Option.some.inj hs
      refine h.set_of_same (hp.setRound (Ne.symm hne) hrunning (by simp [ProcessInv.Applying, hidle])
        (by simp [ProcessInv.Applying]) (fun _ _ _ heq => by cases heq; rfl) ⟨[], .asking ?_, ?_⟩) fun heq => heq ▸ rfl
      · simpa using hp.stores.endOffset
      · simpa using hp.isPrefix.map encodeMetadataRecord
  case serve b =>
    have hp := h.processes b
    simp only [machine] at hs
    split at hs
    case h_2 => contradiction
    case h_1 controller' next payloads hround =>
      cases Option.some.inj hs
      cases hp.asked _ _ _ hround
      exact h.set_of_same (hp.serve hround (h.processes controller).stores) fun heq => heq ▸ rfl
  case lose b =>
    have hp := h.processes b
    simp only [machine] at hs
    split at hs
    case h_2 => contradiction
    case h_1 hround =>
      cases Option.some.inj hs
      refine h.set_of_same (hp.endRound ?_ ?_) fun heq => heq ▸ rfl
      · simp [hround]
      · simp [ProcessInv.Applying, hround]
  case receive b =>
    have hp := h.processes b
    simp only [machine] at hs
    split at hs
    case h_2 => contradiction
    case h_1 count rest hround =>
      cases Option.some.inj hs
      have hb := (hp.of_round (by simp [hround])).left
      have ⟨F', hp'⟩ := hp.receive hround h.valid (by omega)
      exact h.set_of_same hp' fun heq => absurd heq hb
  case apply b =>
    have hp := h.processes b
    simp only [machine] at hs
    split at hs
    case h_2 => contradiction
    case h_1 payload count rest hround =>
      have hb := (hp.of_round (by simp [hround])).left
      have ⟨record, hdecode, hp'⟩ := hp.apply hround h.valid
      simp only [hdecode] at hs
      cases Option.some.inj hs
      exact h.set_of_same hp' fun heq => absurd heq hb
  case stop b =>
    simp only [machine] at hs
    split at hs
    case isFalse => contradiction
    case isTrue =>
      cases Option.some.inj hs
      refine ⟨records, Nat.le_succ_of_le hle, h.valid, fun b' => ?_⟩
      by_cases hb : b' = b
      case pos =>
        subst hb
        simpa only [State.stop, Function.update_self] using (h.processes b').stop
      case neg =>
        simp only [State.stop, Function.update_of_ne hb]
        exact (h.processes b').disconnect b
  case start b =>
    simp only [machine] at hs
    split at hs
    case isFalse => contradiction
    case isTrue =>
      cases Option.some.inj hs
      exact h.set_of_same ((h.processes b).start (hdirs b) fun r hr => (h.valid r hr).left) fun heq => heq ▸ rfl

theorem agrees (h : Inv controller n s records) : Agrees controller s := by
  have hentries : ∀ b, (s.processes b).log.entries = .ok ((records b).map encodeMetadataRecord) := fun b =>
    (h.processes b).stores.refines.entries
  have hsettled : ∀ b, (s.processes b).running → (s.processes b).Settled →
      Metadata.Consistent (s.processes b).log (s.processes b).topics (records b) fun _ => False := by
    intro b hrunning hsettled
    refine ((h.processes b).consistent hrunning).congr fun r => iff_of_false nofun ?_
    rintro (⟨task, htask, hpending⟩ | ⟨payload, count, rest, hround, _⟩)
    · rw [hsettled.left task htask] at hpending
      contradiction
    · exact hsettled.right payload count rest hround
  refine ⟨fun b => ⟨_, _, hentries controller, hentries b, (h.processes b).isPrefix.map _⟩,
    fun b hrunning hb => (hsettled b hrunning hb).replay, fun b b' hrunning hb hrunning' hb' hend => ?_⟩
  -- Of two parts from the beginning, those of the same length are the same.
  have hlen : (records b).length = (records b').length := by
    rw [(h.processes b).stores.endOffset, (h.processes b').stores.endOffset] at hend
    simpa using hend
  have heq : records b = records b' := by
    rw [List.prefix_iff_eq_take.mp (h.processes b).isPrefix, List.prefix_iff_eq_take.mp (h.processes b').isPrefix, hlen]
  have hreplay := (hsettled b hrunning hb).settled
  have hreplay' := (hsettled b' hrunning' hb').settled
  rw [heq] at hreplay
  exact Finmap.ext_lookup fun name => (hreplay name nofun).trans (hreplay' name nofun).symm

end Inv

theorem inductive_inv (cluster : Membership) (hdirs : ∀ b, Storage.Ordinary (dirs b).dir) (controller : Int) :
    (machine cluster dirs).InductiveUpTo (fun s a => FixedController controller s a ∧ SmallRecords s a) (2 ^ 63 - 1)
      fun n s _ => ∃ records, Inv controller n s records where
  step hn h hc hs :=
    have ⟨_, h⟩ := h
    h.step hdirs (by omega) hc.left hc.right hs

-- Brokers that follow one controller agree with it at all times, if its records are not too long.
theorem agrees_of_smallRecords (hdirs : ∀ b, Storage.Ordinary (dirs b).dir) (hn : as.length < 2 ^ 63)
    (hfixed : (machine cluster dirs).Along (FixedController controller) (.init cluster) as)
    (hsmall : (machine cluster dirs).Along SmallRecords (.init cluster) as)
    (hr : (machine cluster dirs).run (.init cluster) as = some (s, os)) : Agrees controller s :=
  have ⟨_, h⟩ := (inductive_inv cluster hdirs controller).run_nil ⟨_, Inv.init cluster controller⟩ (by omega)
    (hfixed.and hsmall) hr
  h.agrees

theorem sorted_pair : [(1 : Int), 2].Pairwise (· ≤ ·) := by
  decide

theorem isInt32_pair : ∀ id ∈ [(1 : Int), 2], IsInt32 id := by
  decide

def sampleCluster : Membership where
  ids    := [1, 2]
  sorted := sorted_pair
  int32  := isInt32_pair

def sampleView : View where
  controllerID := 2
  alive        := [1, 2]
  topics       := []

def sampleDirs (_ : Int) : Storage.Location where
  disk := .empty
  dir  := .join [100] [109]

theorem ordinary_sampleDirs (b : Int) : Storage.Ordinary (sampleDirs b).dir := by
  rw [sampleDirs]
  decide +kernel

-- A follower stops between the append and the apply of a record, and both brokers are started again.
theorem agrees_of_smallRecords_restart :
    let as : List Step := [.topics 2 (.call (.createTopic [116] 2 2)), .topics 2 (.step 0 sampleView),
      .topics 2 (.step 0 sampleView), .fetch 1 2, .serve 1, .topics 2 (.step 0 sampleView), .serve 1, .receive 1,
      .stop 1, .start 1, .topics 2 (.call (.deleteTopic [116])), .topics 2 (.step 1 sampleView),
      .topics 2 (.step 1 sampleView), .stop 2, .start 2, .fetch 1 2, .serve 1, .serve 1, .receive 1, .apply 1]
    ∃ s os, (machine sampleCluster sampleDirs).run (.init sampleCluster) as = some (s, os) ∧
      (s.processes 1).log.endOffset = 2 ∧ Agrees 2 s := by
  intro as
  have hrun : ((machine sampleCluster sampleDirs).run (.init sampleCluster) as).map
      (fun (s, _) => (s.processes 1).log.endOffset) =
      some 2 := by decide +kernel
  have ⟨⟨s, os⟩, hs, heq⟩ := Option.map_eq_some_iff.mp hrun
  exact ⟨s, os, hs, heq, agrees_of_smallRecords ordinary_sampleDirs (by decide) (by decide +kernel)
    (by decide +kernel) hs⟩

-- The state of the two brokers of the sample.
def pair (p q : Process) : State where
  processes b := if b = 1 then p else if b = 2 then q else .new false

theorem init_sampleCluster : State.init sampleCluster = pair (.new true) (.new true) := by
  refine congrArg State.mk (funext fun b => ?_)
  by_cases h₁ : b = 1
  case pos => simp [h₁, sampleCluster]
  case neg =>
    by_cases h₂ : b = 2
    case pos => simp [h₂, sampleCluster]
    case neg => simp [h₁, h₂, sampleCluster]

theorem set_pair_left (p q p' : Process) : (pair p q).set 1 p' = pair p' q := by
  refine congrArg State.mk (funext fun b => ?_)
  by_cases h : b = 1
  case pos => simp [pair, h]
  case neg => simp [pair, h]

theorem set_pair_right (p q q' : Process) : (pair p q).set 2 q' = pair p q' := by
  refine congrArg State.mk (funext fun b => ?_)
  by_cases h : b = 2
  case pos => simp [pair, h]
  case neg => simp [pair, h]

theorem topics_pair {p q : Process} {broker : Metadata.Broker} {out : List Metadata.Output} {step : Metadata.Step}
    (hrunning : q.running) (h : q.exec ⟨2, sampleCluster⟩ step = some (broker, out)) :
    (machine sampleCluster sampleDirs).step (pair p q) (.topics 2 step) =
    some (pair p { q with toBroker := broker }, []) := by
  have hq : (pair p q).processes 2 = q := rfl
  simp only [machine, hq, if_pos hrunning, h, Option.map_some, set_pair_right]

theorem serve_pair {p q : Process} {next : Int} {payloads : List Bytes} (h : p.round = .asking 2 next payloads) :
    (machine sampleCluster sampleDirs).step (pair p q) (.serve 1) =
      some (pair { p with round := Round.serve q.log 2 next payloads } q, []) := by
  have hp : (pair p q).processes 1 = p := rfl
  have hq : (pair p q).processes 2 = q := rfl
  simp only [machine, hp, h, hq, set_pair_left]

-- The follower takes a record that is too long for one without any bytes.
theorem not_agrees_of_large {operation : Operation} {record : Record} {view : View} (hshort : operation.Short)
    (hstart : operation.start ⟨2, sampleCluster⟩ view ∅ = some (.append record .reply))
    (hl : 2 ^ 31 ≤ (encodeMetadataRecord record).length) (hu : (encodeMetadataRecord record).length + 12 < 2 ^ 32) :
    let as : List Step := [.topics 2 (.call operation), .topics 2 (.step 0 view), .topics 2 (.step 0 view), .fetch 1 2,
      .serve 1, .serve 1, .receive 1]
    (machine sampleCluster sampleDirs).Along (FixedController 2) (.init sampleCluster) as ∧
      ∃ s os, (machine sampleCluster sampleDirs).run (.init sampleCluster) as = some (s, os) ∧ ¬Agrees 2 s := by
  intro as
  obtain ⟨log, happend, hlog⟩ := Storage.Log.empty_stores.append (p := encodeMetadataRecord record) (by omega)
    (by decide)
  rw [List.nil_append] at hlog
  let payload := encodeMetadataRecord record
  let idle : Process := .new true
  let asking (next : Int) (payloads : List Bytes) : Process := { idle with round := .asking 2 next payloads }
  let busy (progress : Progress) : Process := { idle with tasks := [⟨operation, progress⟩] }
  let ahead : Process := { idle with log, tasks := [⟨operation, .apply record .reply⟩] }
  have hcall : (machine sampleCluster sampleDirs).step (pair idle idle) (.topics 2 (.call operation)) =
      some (pair idle (busy .start), []) :=
    topics_pair rfl rfl
  have hget : (machine sampleCluster sampleDirs).step (pair idle (busy .start)) (.topics 2 (.step 0 view)) =
      some (pair idle (busy (.append record .reply)), []) := by
    refine topics_pair rfl (?_ : _ = some (_, []))
    simp [Metadata.Broker.exec, busy, idle, Process.new, Metadata.Broker.empty, Task.step, hstart, Metadata.outputs]
  have hlogged : (machine sampleCluster sampleDirs).step (pair idle (busy (.append record .reply)))
      (.topics 2 (.step 0 view)) = some (pair idle ahead, []) := by
    refine topics_pair rfl (?_ : _ = some (_, [.logged record]))
    simp [Metadata.Broker.exec, busy, idle, Process.new, Metadata.Broker.empty, Task.step, MetadataLog.append, happend,
      Metadata.outputs]
  have hfetch : (machine sampleCluster sampleDirs).step (pair idle ahead) (.fetch 1 2) =
      some (pair (asking 0 []) ahead, []) := by
    have hp : (pair idle ahead).processes 1 = idle := rfl
    have hq : (pair idle ahead).processes 2 = ahead := rfl
    simp only [machine, hp, hq, set_pair_left]
    rfl
  have hfirst : Round.serve log 2 0 [] = .asking 2 1 [payload] := by
    obtain ⟨k, hpos, hle, hround⟩ := MetadataLog.readRound_eq_some hlog (Int.le_refl 0) (by simp)
    have hk : k = 1 := by
      simp only [List.length_singleton] at hle
      omega
    subst hk
    rw [Round.serve, hround]
    rfl
  have hlast : Round.serve log 2 1 [payload] = .reading 1 (writeBytes (some payload)) := by
    rw [Round.serve, MetadataLog.readRound_eq_none hlog (by simp), answered_large hu]
  obtain ⟨log', hreceive, hlog'⟩ := receive_large hl (by omega)
  have hserve : (machine sampleCluster sampleDirs).step (pair (asking 0 []) ahead) (.serve 1) =
      some (pair (asking 1 [payload]) ahead, []) :=
    (serve_pair rfl).trans (hfirst ▸ rfl)
  have hserve' : (machine sampleCluster sampleDirs).step (pair (asking 1 [payload]) ahead) (.serve 1) =
      some (pair { idle with round := .reading 1 (writeBytes (some payload)) } ahead, []) :=
    (serve_pair rfl).trans (hlast ▸ rfl)
  have hreceived : (machine sampleCluster sampleDirs).step
      (pair { idle with round := .reading 1 (writeBytes (some payload)) } ahead) (.receive 1) =
        some (pair { idle with log := log', round := .applying none 0 payload } ahead, []) := by
    have hp (p : Process) : (pair p ahead).processes 1 = p := rfl
    have hempty : idle.log = .empty := rfl
    have hreceive : Round.receive .empty 1 (writeBytes (some payload)) = (log', .applying none 0 payload) := hreceive
    simp only [machine, hp, hempty, hreceive, set_pair_left]
  refine ⟨?_, pair { idle with log := log', round := .applying none 0 payload } ahead, [], ?_, fun h => ?_⟩
  · -- Only the call and the fetch have a condition to meet.
    have hfixed : (machine sampleCluster sampleDirs).Along (FixedController 2) (pair idle (busy .start)) as.tail :=
      Machine.along_of_forall (P := fun a => ∀ s, FixedController 2 s a) (by simp [as, FixedController]) _ |>.mono
        fun s _ h => h s
    rw [init_sampleCluster]
    exact (Machine.along_cons_of_some hcall).mpr ⟨⟨rfl, hshort, List.forall_mem_nil _⟩, hfixed⟩
  · rw [init_sampleCluster]
    exact Machine.run_cons_of_some hcall <| Machine.run_cons_of_some hget <| Machine.run_cons_of_some hlogged <|
      Machine.run_cons_of_some hfetch <| Machine.run_cons_of_some hserve <| Machine.run_cons_of_some hserve' <|
      Machine.run_cons_of_some hreceived Machine.run_nil
  · obtain ⟨L, F, hL, hF, hpre⟩ := h.logs 1
    have hL' : log.entries = .ok L := hL
    have hF' : log'.entries = .ok F := hF
    rw [hlog.refines.entries] at hL'
    rw [hlog'.refines.entries] at hF'
    cases hL'
    cases hF'
    have hnil : [] = payload := (List.cons_prefix_cons.mp hpre).left
    rw [show encodeMetadataRecord record = [] from hnil.symm] at hl
    simp at hl

-- A topic of so many partitions that its record has 3221225480 bytes.
theorem largeRecord_not_agrees :
    let as : List Step := [.topics 2 (.call (.createTopic [116] (2 ^ 27) 1)), .topics 2 (.step 0 sampleView),
      .topics 2 (.step 0 sampleView), .fetch 1 2, .serve 1, .serve 1, .receive 1]
    (machine sampleCluster sampleDirs).Along (FixedController 2) (.init sampleCluster) as ∧
      ∃ s os, (machine sampleCluster sampleDirs).run (.init sampleCluster) as = some (s, os) ∧ ¬Agrees 2 s := by
  have ⟨partitions, hok, hlen, hreplicas⟩ :=
    newPartitions_eq_ok (show (0 : Int) < 2 ^ 27 by norm_num) Int.one_pos
      (show 1 ≤ (sampleCluster.ids.length : Int) by decide)
  have hlength : (encodeMetadataRecord ⟨.topicUpsert, [116], partitions⟩).length = 3221225480 := by
    rw [length_topicUpsert, length_flatMap_writePartition hreplicas, hlen]
    rfl
  have hstart : Operation.start ⟨2, sampleCluster⟩ sampleView ∅ (.createTopic [116] (2 ^ 27) 1) =
      some (.append ⟨.topicUpsert, [116], partitions⟩ .reply) := by
    simp only [Operation.start, hok]
    rfl
  exact not_agrees_of_large (by decide) hstart (by omega) (by omega)

end Network.MetadataCluster
