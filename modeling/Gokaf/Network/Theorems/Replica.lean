import Gokaf.Network.Replica
import Gokaf.Network.Theorems.Fetch
import Gokaf.Protocol.Theorems.Effect
import Gokaf.Replication.Theorems.Fetcher
import Gokaf.Storage.Theorems.Layout
import Gokaf.Storage.Theorems.Manager

open Go Protocol Replication Effect

namespace Network

section Handler

variable {σ α β : Type} {bs rest : Bytes} {a : α}

-- A handler that reads what was written goes on with the value.
theorem exec_reads {x : Effect σ α} {d : Decoder α} (h : Stateless x d) (hr : Reads d bs a) (f : α → Effect σ β)
    (s : σ) : exec (x >>= f) (bs ++ rest) s = exec (f a) rest s := by
  have hx : exec x (bs ++ rest) s = (.ok (a, rest), s) := by rw [h.exec, hr]
  rw [exec_bind_of_ok hx]

theorem exec_forRange_one {body : Effect σ α} {s s' : σ} {bs' : Bytes} (h : exec body bs s = (.ok (a, bs'), s')) :
    exec (forRange 1 body) bs s = (.ok ([a], bs'), s') := by
  change exec (body >>= fun a => (pure [] : Effect σ (List α)) >>= fun as => pure (a :: as)) bs s = _
  rw [exec_bind_of_ok h]
  rfl

theorem exec_forTopics_one {topicName : Bytes} (ht : topicName.length < 2 ^ 15) {partition : Bytes → Effect σ α}
    {s s' : σ} {bs' : Bytes} (h : exec (partition topicName) bs s = (.ok (a, bs'), s')) :
    exec (forTopics partition) (writeArrayLen 1 ++ (writeString topicName ++ (writeArrayLen 1 ++ bs))) s =
      (.ok ([(topicName, [a])], bs'), s') := by
  have hone : Reads readArrayLen (writeArrayLen 1) 1 := reads_readArrayLen 1
  have hslice (bs : Bytes) (s : σ) : exec (makeSlice 1 : Effect σ Unit) bs s = (.ok ((), bs), s) := rfl
  have htopic : exec (do
      let topicName ← readString
      let partitionCount ← readArrayLen
      makeSlice partitionCount
      let partitions ← forRange partitionCount (partition topicName)
      return (topicName, partitions)) (writeString topicName ++ (writeArrayLen 1 ++ bs)) s =
      (.ok ((topicName, [a]), bs'), s') := by
    rw [exec_reads stateless_readString (reads_readString ht), exec_reads stateless_readArrayLen hone,
      exec_bind_of_ok (hslice _ _), exec_bind_of_ok (exec_forRange_one h)]
    rfl
  rw [forTopics, exec_reads stateless_readArrayLen hone, exec_bind_of_ok (hslice _ _)]
  exact exec_forRange_one htopic

theorem exec_handleFetch {topicName : Bytes} (ht : topicName.length < 2 ^ 15) {env : Env} {b b' : Broker}
    {replicaID partition offset maxBytes : Int} {response : FetchPartitionResponse}
    (h : b.fetchPartition env (wrap 32 replicaID) topicName (wrap 32 partition) (wrap 64 offset) (wrap 32 maxBytes) =
      (b', response)) :
    exec (handleFetch fun _ => env) (buildFetchRequest replicaID topicName partition offset maxBytes) ⟨b, 0⟩ =
      (.ok (writeFetchResponse [⟨topicName, [response]⟩], []), ⟨b', 1⟩) := by
  have hpartition : exec (do
      let partitionIndex ← readInt32
      let fetchOffset ← readInt64
      let partitionMaxBytes ← readInt32
      execute (fun _ => env) fun env b =>
        b.fetchPartition env (wrap 32 replicaID) topicName partitionIndex fetchOffset partitionMaxBytes)
      (writeInt32 partition ++ (writeInt64 offset ++ (writeInt32 maxBytes ++ []))) ⟨b, 0⟩ =
      (.ok (response, []), ⟨b', 1⟩) := by
    rw [exec_reads stateless_readInt32 (reads_readInt32 _), exec_reads stateless_readInt64 (reads_readInt64 _),
      exec_reads stateless_readInt32 (reads_readInt32 _), execute, exec_update, h]
  have htopics : exec (fetchTopics fun replicaID topicName partitionIndex fetchOffset partitionMaxBytes =>
      execute (fun _ => env) fun env b => b.fetchPartition env replicaID topicName partitionIndex fetchOffset
        partitionMaxBytes) (buildFetchRequest replicaID topicName partition offset maxBytes) ⟨b, 0⟩ =
      (.ok ([(topicName, [response])], []), ⟨b', 1⟩) := by
    rw [fetchTopics, buildFetchRequest]
    simp only [List.append_assoc]
    rw [← List.append_nil (writeInt32 maxBytes), exec_reads stateless_readInt32 (reads_readInt32 _),
      exec_reads stateless_readInt32 (reads_readInt32 _), exec_reads stateless_readInt32 (reads_readInt32 _)]
    exact exec_forTopics_one ht hpartition
  rw [handleFetch, exec_bind_of_ok htopics]
  rfl

end Handler

variable {l : Storage.Log} {L : List Bytes}

theorem Delimited.total {p : Bytes} (h : Delimited p) : 12 + BigEndian.uint (slice p 8 12) = p.length := by
  have hle := h.le_length
  have hlength := h.batchLength
  omega

-- An answer has whole entries from the offset on, and few enough bytes for its length field.
theorem exists_answerFetch (h : l.Stores L) (hL : ∀ p ∈ L, p.length < 2 ^ 31) {n : Nat} (hn : n ≤ L.length)
    (partitionIndex highWatermark maxBytes : Int) :
    ∃ k, n + k ≤ L.length ∧ (n < L.length → 0 < k) ∧ ((L.drop n).take k).flatten.length < 2 ^ 31 ∧
      (answerFetch storageLog l partitionIndex l.endOffset highWatermark n maxBytes).errorCode = .none ∧
      (answerFetch storageLog l partitionIndex l.endOffset highWatermark n maxBytes).records.getD [] =
        ((L.drop n).take k).flatten := by
  rw [h.endOffset]
  by_cases heq : n = L.length
  case pos =>
    refine ⟨0, by omega, by omega, by simp, ?_, ?_⟩
    · rw [answerFetch, if_neg (by omega), if_pos (by omega)]
    · rw [answerFetch, if_neg (by omega), if_pos (by omega)]
      simp
  case neg =>
    obtain ⟨k, hpos, hle, hread⟩ := h.read_of_lt (Int.natCast_nonneg n) (by omega) maxBytes
    rw [Int.toNat_natCast] at hle hread
    have hsize := h.payloadSize_read_lt hL (Int.natCast_nonneg n) hread
    rw [Storage.map_payload_recordsFrom] at hsize
    have hread : storageLog.read l n maxBytes = _ := hread
    refine ⟨k, hle, fun _ => hpos, by rwa [List.length_flatten], ?_, ?_⟩
    · rw [answerFetch, if_neg (by omega), if_neg (by omega), hread]
    · rw [answerFetch, if_neg (by omega), if_neg (by omega), hread]
      exact joinRecordPayloads_recordsFrom _ _

theorem appendAll_built {bs : List Bytes} (h : l.Built L) (hb : ∀ b ∈ bs, b.length < 2 ^ 32)
    (hlen : L.length + bs.length < 2 ^ 63) : (appendAll l bs).Built (L ++ bs) := by
  induction bs generalizing l L
  case nil => simpa [appendAll] using h
  case cons b bs hi =>
    rw [List.length_cons] at hlen
    obtain ⟨l', o, happend, hl'⟩ := h.snoc (hb b List.mem_cons_self) (by omega)
    have hrest := hi hl' (fun b hb' => hb b (List.mem_cons_of_mem _ hb')) (by simp; omega)
    simpa [appendAll, happend] using hrest

namespace Fetcher

variable {f : Fetcher} {leader : Broker} {follower : Storage.Log} {n : Nat}

theorem Leads.partition_nonneg (h : f.Leads leader l) : 0 ≤ f.partition := by
  by_contra hneg
  have hnone : leader.partition? f.topic f.partition = none := by
    simp [Broker.partition?, not_le.mp hneg]
  have := h.known
  simp [hnone] at this

-- A fetch leaves the log open.
theorem Leads.fetchPartition (h : f.Leads leader l) (env : Env) (replicaID fetchOffset maxBytes : Int) :
    ∃ leader' highWatermark, f.Leads leader' l ∧
      leader.fetchPartition env replicaID f.topic f.partition fetchOffset maxBytes =
        (leader', answerFetch storageLog l f.partition l.endOffset highWatermark fetchOffset maxBytes) := by
  have hlog := h.log
  rcases hopen : leader.logs.log f.topic f.partition with ⟨logs, log⟩
  rw [hopen] at hlog
  have hlog : log = .ok l := hlog
  subst hlog
  refine ⟨{ leader with logs }, (recordFetch (env.led f.topic f.partition) replicaID fetchOffset l.endOffset
    env.now).snd.snd, ⟨h.known, by rw [Storage.Manager.log_log hopen]⟩, ?_⟩
  simp only [Broker.fetchPartition, h.known, if_true, hopen, Network.fetchPartition, not_true_eq_false, if_false]
  rfl

theorem fetchOnce_eq {env : Env} {resp rest : Bytes} {s : Handling} (hend : follower.endOffset = n)
    (h : exec (handleFetch fun _ => env) (buildFetchRequest f.selfID f.topic f.partition n f.maxBytes) ⟨leader, 0⟩ =
      (.ok (resp, rest), s)) :
    f.fetchOnce env leader follower = (s.broker, appendAll follower (batchesOf resp)) := by
  rw [Fetcher.fetchOnce, hend, h, receive]

-- One round, as an append of the entries that follow.
theorem Leads.fetchOnce (h : f.Leads leader l) (ht : f.topic.length < 2 ^ 15) (hp : f.partition < 2 ^ 31)
    (hl : l.Stores L) (hL : ∀ p ∈ L, Delimited p) (hn : n ≤ L.length) (hend : follower.endOffset = n) (env : Env) :
    ∃ leader' k, f.Leads leader' l ∧ n + k ≤ L.length ∧ (n < L.length → 0 < k) ∧
      f.fetchOnce env leader follower = (leader', appendAll follower ((L.drop n).take k)) := by
  obtain ⟨leader', highWatermark, hleads, hfetch⟩ := h.fetchPartition env (wrap 32 f.selfID) n (wrap 32 f.maxBytes)
  obtain ⟨k, hle, hpos, hsize, hcode, hrecords⟩ :=
    exists_answerFetch hl (fun p hp => (hL p hp).length_lt) hn f.partition highWatermark (wrap 32 f.maxBytes)
  have hpartition : wrap 32 f.partition = f.partition := wrap_of_nonneg (by decide) h.partition_nonneg hp
  have hoffset : wrap 64 (n : Int) = n := by
    have := hl.length_lt
    exact wrap_of_nonneg (by decide) (by omega) (by omega)
  have hbatches := batchesOf_eq ht hcode (fun b hb => (hL b (List.mem_of_mem_drop (List.mem_of_mem_take hb))).total)
    hrecords hsize
  refine ⟨leader', k, hleads, hle, hpos, ?_⟩
  rw [fetchOnce_eq hend (exec_handleFetch ht (by rw [hpartition, hoffset, hfetch])), hbatches]

theorem fetchOnce_built (h : f.Leads leader l) (ht : f.topic.length < 2 ^ 15) (hp : f.partition < 2 ^ 31)
    (hl : l.Built L) (hL : ∀ p ∈ L, Delimited p) (hlen : L.length < 2 ^ 63) (hf : follower.Built (L.take n))
    (hn : n ≤ L.length) (env : Env) :
    ∃ leader' follower' n', f.fetchOnce env leader follower = (leader', follower') ∧ f.Leads leader' l ∧
      follower'.Built (L.take n') ∧ n ≤ n' ∧ n' ≤ L.length ∧ (n < L.length → n < n') := by
  have hmin : (L.take n).length = n := List.length_take_of_le hn
  have hend : follower.endOffset = n := by rw [(hf.stores (by omega)).endOffset, hmin]
  obtain ⟨leader', k, hleads, hle, hpos, hround⟩ := h.fetchOnce ht hp (hl.stores hlen) hL hn hend env
  refine ⟨leader', _, n + k, hround, hleads, ?_, by omega, hle, fun hlt => by have := hpos hlt; omega⟩
  rw [List.take_add]
  refine appendAll_built hf (fun b hb => ?_) ?_
  · have := (hL b (List.mem_of_mem_drop (List.mem_of_mem_take hb))).length_lt
    omega
  · rw [hmin, List.length_take_of_le (by rw [List.length_drop]; omega)]
    omega

theorem fetchAll_built (h : f.Leads leader l) (ht : f.topic.length < 2 ^ 15) (hp : f.partition < 2 ^ 31)
    (hl : l.Built L) (hL : ∀ p ∈ L, Delimited p) (hlen : L.length < 2 ^ 63) (hf : follower.Built (L.take n))
    (hn : n ≤ L.length) (envs : List Env) (henvs : L.length ≤ n + envs.length) :
    (f.fetchAll leader follower envs).snd.Built L := by
  induction envs generalizing leader follower n
  case nil =>
    have hle : L.length ≤ n := henvs
    rwa [List.take_of_length_le hle] at hf
  case cons env envs hi =>
    obtain ⟨leader', follower', n', hround, hleads, hf', hle, hn', hlt⟩ :=
      fetchOnce_built h ht hp hl hL hlen hf hn env
    rw [List.length_cons] at henvs
    rw [fetchAll, List.foldl_cons, hround]
    refine hi hleads hf' hn' ?_
    by_cases hmore : n < L.length
    case pos =>
      have := hlt hmore
      omega
    case neg => omega

-- Each round copies entries of the leader as they are, at least one as long as there are more, so that in the end the
-- log files are the same.
theorem fetchOnce_copies (h : f.Leads leader l) (ht : f.topic.length < 2 ^ 15) (hp : f.partition < 2 ^ 31)
    (hl : l.Built L) (hL : ∀ p ∈ L, Delimited p) (hlen : L.length < 2 ^ 63) (hf : follower.Built (L.take n))
    (hn : n ≤ L.length) :
    (∀ env, ∃ n', n ≤ n' ∧ n' ≤ L.length ∧ (n < L.length → n < n') ∧
      (f.fetchOnce env leader follower).snd.Built (L.take n') ∧
      (f.fetchOnce env leader follower).snd.entries = .ok (L.take n')) ∧
    ∀ envs : List Env, L.length - n ≤ envs.length →
      (f.fetchAll leader follower envs).snd.entries = l.entries ∧
      (f.fetchAll leader follower envs).snd.logFiles = l.logFiles := by
  refine ⟨fun env => ?_, fun envs henvs => ?_⟩
  · obtain ⟨leader', follower', n', hround, _, hf', hle, hn', hlt⟩ := fetchOnce_built h ht hp hl hL hlen hf hn env
    have hlen' : (L.take n').length < 2 ^ 63 := by
      rw [List.length_take_of_le hn']
      omega
    rw [hround]
    exact ⟨n', hle, hn', hlt, hf', (hf'.stores hlen').refines.entries⟩
  · have hf' := fetchAll_built h ht hp hl hL hlen hf hn envs (by omega)
    rw [(hf'.stores hlen).refines.entries, (hl.stores hlen).refines.entries]
    exact ⟨rfl, hf'.logFiles_eq hl hlen⟩

def sample : Fetcher where
  topic     := [116]
  partition := 0
  selfID    := 2
  maxBytes  := fetchMaxBytes

-- Batches of 12, 15 and 13 bytes.
def sampleBatches : List Bytes := [
  List.replicate 12 0,
  [0, 0, 0, 0, 0, 0, 0, 1, 0, 0, 0, 3, 7, 8, 9],
  [0, 0, 0, 0, 0, 0, 0, 2, 0, 0, 0, 1, 5]
]

def sampleLog : Storage.Log :=
  appendAll .empty sampleBatches

def sampleLeader : Broker where
  topics    := Topic.Registry.upsert ∅ ⟨[116], [⟨0, 1, [1, 2], [1, 2]⟩]⟩
  metadata  := .empty
  logs      := (Storage.Manager.new [] .empty).set [116] 0 sampleLog
  producers := .new
  offsets   := ∅

theorem sample_leads : sample.Leads sampleLeader sampleLog where
  known := by simp [Broker.partition?, sampleLeader, sample, Topic.Registry.get, Topic.Registry.upsert]
  log   := by simp [sampleLeader, sample, Storage.Manager.log, Storage.Manager.set]

-- A follower that has the first of the batches.
def sampleFollower : Storage.Log :=
  appendAll .empty (sampleBatches.take 1)

theorem fetchOnce_copies_three :
    (∀ env, ∃ n', 1 < n' ∧
      (sample.fetchOnce env sampleLeader sampleFollower).snd.entries = .ok (sampleBatches.take n')) ∧
    ∀ env env', (sample.fetchAll sampleLeader sampleFollower [env, env']).snd.entries = .ok sampleBatches ∧
      (sample.fetchAll sampleLeader sampleFollower [env, env']).snd.logFiles = sampleLog.logFiles := by
  have hbuilt : sampleLog.Built sampleBatches := appendAll_built .empty (by decide) (by decide)
  have hfollower : sampleFollower.Built (sampleBatches.take 1) := appendAll_built .empty (by decide) (by decide)
  have hcopies := fetchOnce_copies (n := 1) sample_leads (by decide) (by decide) hbuilt (by decide +kernel) (by decide)
    hfollower (by decide)
  refine ⟨fun env => ?_, fun env env' => ?_⟩
  · obtain ⟨n', _, _, hlt, _, hentries⟩ := hcopies.left env
    exact ⟨n', hlt (by decide), hentries⟩
  · obtain ⟨hentries, hfiles⟩ := hcopies.right [env, env'] le_rfl
    exact ⟨hentries.trans (hbuilt.stores (by decide)).refines.entries, hfiles⟩

end Fetcher

end Network
