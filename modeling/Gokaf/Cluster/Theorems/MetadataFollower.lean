import Gokaf.Cluster.MetadataFollower
import Gokaf.Cluster.Theorems.MetadataLog

open Go Protocol

namespace Cluster

def writeRest (ps : List Bytes) : Bytes :=
  ps.flatMap (writeBytes <| some ·)

-- What a round may still append to a log of the given length.
inductive Brings (len : Nat) : Round → List Bytes → Prop
  | idle : Brings len .idle []
  | asking {controller next : Int} {ps : List Bytes} :
    next = len + ps.length → Brings len (.asking controller next ps) ps
  | reading {count : Int} {rest : Bytes} {ps : List Bytes} :
    rest <+: writeRest ps → Brings len (.reading count rest) ps
  | applying {payload : Option Bytes} {count : Int} {rest : Bytes} {ps : List Bytes} :
    rest <+: writeRest ps → Brings len (.applying payload count rest) ps

variable {F R ps : List Bytes} {log : Storage.Log} {len : Nat} {count next controller correlationID : Int}
  {rest body body' : Bytes}

-- An answer may arrive cut off, since the length of a frame is written with 32 bits.
theorem received_isPrefix (h : received correlationID body = .ok body') : body' <+: body := by
  unfold received at h
  split at h
  case h_1 => contradiction
  case h_2 payload rest hframe =>
    have ⟨header, rest', hheader, hpayload⟩ := run_bind_eq_ok hframe
    have hrest : rest' = writeResponseHeader correlationID ++ body := by
      rw [(eq_of_run_readFull hheader).right, writeFrame]
      exact List.drop_left' (length_putInt 32 _)
    have hpart : payload <+: writeResponseHeader correlationID ++ body := by
      rw [(eq_of_run_readFull hpayload).left, hrest]
      exact List.take_prefix ..
    have hdrop : payload.drop 4 <+: body := by
      have ⟨t, ht⟩ := hpart
      refine ⟨t.drop (4 - payload.length), ?_⟩
      rw [← List.drop_append, ht]
      exact List.drop_left' (length_putInt 32 correlationID)
    split at h
    case h_1 => contradiction
    case h_2 =>
      split at h
      case isTrue =>
        cases h
        exact hdrop
      case isFalse => contradiction

theorem reads_readFrame {payload : Bytes} (h : payload.length < 2 ^ 32) :
    Reads readFrame (writeFrame payload) payload := by
  have hheader := reads_readFull (putInt 32 payload.length)
  rw [length_putInt] at hheader
  have hlength : BigEndian.uint (putInt 32 payload.length) = payload.length := by
    rw [putInt, unsigned_natCast_of_lt h]
    exact BigEndian.uint_put_of_lt (lt_of_lt_of_eq h (by norm_num))
  refine hheader.bind ?_
  simp only [hlength]
  exact reads_readFull payload

-- A shorter answer arrives as a whole.
theorem received_eq (hid : IsInt32 correlationID) (h : body.length + 4 < 2 ^ 32) :
    received correlationID body = .ok body := by
  have hlen : (writeResponseHeader correlationID ++ body).length < 2 ^ 32 := by
    rw [List.length_append, writeResponseHeader, length_writeInt32]
    omega
  have hframe := reads_readFrame hlen []
  rw [List.append_nil] at hframe
  have hheader := reads_of_isInt32 hid body
  rw [writeResponseHeader] at hframe
  rw [received, writeResponseHeader, hframe]
  simp only [hheader, if_true]
  exact congrArg Except.ok (List.drop_left' (length_writeInt32 correlationID))

theorem brings_answered (len : Nat) (payloads : List Bytes) :
    Brings len (.answered payloads) payloads ∨ Round.answered payloads = .idle := by
  unfold Round.answered
  split
  case h_1 => exact .inr rfl
  case h_2 body hbody =>
    split
    case h_1 => exact .inr rfl
    case h_2 count rest hcount =>
      have hpart := received_isPrefix hbody
      exact .inl (.reading (readsPart_readArrayLen _ _ _ _ _ hpart hcount).right)

theorem serve_cases (log : Storage.Log) (controller next : Int) (ps : List Bytes) :
    Round.serve log controller next ps = .idle ∨
      (∃ next' ps', Round.serve log controller next ps = .asking controller next' ps') ∨
      ∃ count rest, Round.serve log controller next ps = .reading count rest := by
  unfold Round.serve
  split
  case h_1 => exact .inl rfl
  case h_2 =>
    unfold Round.answered
    split
    case h_1 => exact .inl rfl
    case h_2 =>
      split
      case h_1 => exact .inl rfl
      case h_2 => exact .inr (.inr ⟨_, _, rfl⟩)
  case h_3 => exact .inr (.inl ⟨_, _, rfl⟩)

-- A round of the controller adds the next payloads of its log to what it has read, or ends.
theorem brings_serve (h : Brings len (.asking controller next ps) ps) (hlog : log.Stores R) :
    ∃ ps', Brings len (Round.serve log controller next ps) ps' ∧ (ps' = [] ∨ ps' = ps ∨
      len + ps.length < R.length ∧ ∃ k, ps' = ps ++ (R.drop (len + ps.length)).take k) := by
  cases h
  case asking hnext =>
    have hnext : next = (len + ps.length : Nat) := by simpa using hnext
    cases Nat.lt_or_ge (len + ps.length) R.length
    case inr hle =>
      rw [Round.serve, MetadataLog.readRound_eq_none hlog (by omega)]
      cases brings_answered len ps
      case inl h => exact ⟨ps, h, .inr (.inl rfl)⟩
      case inr h => exact ⟨[], by rw [h]; exact .idle, .inl rfl⟩
    case inl hlt =>
      have ⟨k, hk, hle, hround⟩ := MetadataLog.readRound_eq_some hlog (show 0 ≤ next by omega) (by omega)
      rw [hnext, Int.toNat_natCast] at hle hround
      rw [Round.serve, hnext, hround]
      refine ⟨_, .asking ?_, .inr (.inr ⟨hlt, k, rfl⟩)⟩
      rw [List.length_append, List.length_take, List.length_drop]
      omega

theorem brings_receive (h : Brings len (.reading count rest) ps) (hps : ∀ p ∈ ps.head?, p.length < 2 ^ 31)
    (hlog : log.Stores F) (hlen : F.length + 1 < 2 ^ 63) :
    Round.receive log count rest = (log, .idle) ∨
      ∃ p ps' log' rest', ps = p :: ps' ∧ log'.Stores (F ++ [p]) ∧ rest' <+: writeRest ps' ∧ 0 < count ∧
        Round.receive log count rest = (log', .applying (some p) (count - 1) rest') := by
  cases h
  case reading hrest =>
    unfold Round.receive
    split
    case isTrue => exact .inl rfl
    case isFalse hcount =>
      split
      case h_1 => exact .inl rfl
      case h_2 payload rest' hrun =>
        cases ps
        case nil =>
          rw [List.prefix_nil.mp hrest] at hrun
          contradiction
        case cons p ps =>
          have hp : p.length < 2 ^ 31 := hps p rfl
          have ⟨hpayload, hrest'⟩ := readsPart_readBytes hp _ _ _ _ hrest hrun
          have ⟨log', happend, hlog'⟩ := hlog.append (p := p) (by omega) hlen
          subst hpayload
          refine .inr ⟨p, ps, log', rest', rfl, hlog', hrest', Int.not_le.mp hcount, ?_⟩
          rw [MetadataLog.appendRaw, Option.getD_some, happend]

-- A payload whose length does not fit is read as none at all.
theorem readBytes_of_large {payload : Bytes} (hl : 2 ^ 31 ≤ payload.length) (hu : payload.length < 2 ^ 32) :
    (readBytes : Decoder _).run (writeBytes (some payload)) = .ok (none, payload) := by
  have hlen : int32 payload.length = payload.length - 2 ^ 32 := by
    simp only [int32, wrap]
    omega
  have h := reads_of_isInt32 (isInt32_int32 payload.length)
  rw [hlen] at h
  rw [readBytes, writeBytes, Option.getD_some, hlen, h.run_bind, if_pos (by omega)]
  rfl

theorem answered_large {payload : Bytes} (h : payload.length + 12 < 2 ^ 32) :
    Round.answered [payload] = .reading 1 (writeBytes (some payload)) := by
  have hlen : (writePayloads [payload]).length + 4 < 2 ^ 32 := by
    simp only [writePayloads, writeBytes, List.length_append, length_writeArrayLen, List.flatMap_singleton,
      length_writeInt32, Option.getD_some]
    omega
  rw [Round.answered, received_eq (by decide) hlen]
  have hcount := reads_readArrayLen 1 (writeBytes (some payload))
  simp only [writePayloads, List.flatMap_singleton, List.length_singleton, Nat.cast_one, hcount]
  rfl

theorem receive_large {payload : Bytes} (hl : 2 ^ 31 ≤ payload.length) (hu : payload.length < 2 ^ 32) :
    ∃ log', Round.receive .empty 1 (writeBytes (some payload)) = (log', .applying none 0 payload) ∧
      log'.Stores [[]] := by
  have ⟨log', happend, hlog⟩ := Storage.Log.empty_stores.append (p := []) (by decide) (by decide)
  refine ⟨log', ?_, hlog⟩
  have hpos : ¬(1 : Int) ≤ 0 := by decide
  simp only [Round.receive, if_neg hpos, readBytes_of_large hl hu, MetadataLog.appendRaw, Option.getD_none, happend]
  rfl

end Cluster
