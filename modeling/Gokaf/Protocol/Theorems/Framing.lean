import Gokaf.Protocol.Framing
import Gokaf.Protocol.Header
import Gokaf.Protocol.Theorems.Layout

open Go

namespace Protocol

variable {bs rest payload : Bytes} {ps : List Bytes}

theorem stable_readFrame : Stable readFrame :=
  (stable_readFull 4).bind fun _ => stable_readFull _

theorem length_of_run_readFull {n : Nat} {xs : Bytes} (h : (readFull n : Decoder _).run bs = .ok (xs, rest)) :
    xs.length = n := by
  rw [(eq_of_run_readFull h).left, List.length_take]
  by_contra hne
  have hlt : bs.length < n := by omega
  obtain ⟨e, he⟩ := run_readFull_of_lt hlt
  rw [he] at h
  contradiction

theorem append_of_run_readFull {n : Nat} {xs : Bytes} (h : (readFull n : Decoder _).run bs = .ok (xs, rest)) :
    bs = xs ++ rest := by
  rw [(eq_of_run_readFull h).left, (eq_of_run_readFull h).right, List.take_append_drop]

-- What is read as a frame was written as one.
theorem eq_of_run_readFrame (h : readFrame.run bs = .ok (payload, rest)) :
    bs = writeFrame payload ++ rest ∧ payload.length < 2 ^ 32 := by
  obtain ⟨header, rest', hheader, hpayload⟩ := run_bind_eq_ok h
  have hlen := length_of_run_readFull hheader
  have huint := length_of_run_readFull hpayload
  have hlt := BigEndian.uint_lt header
  rw [hlen] at hlt
  refine ⟨?_, by rw [huint]; exact hlt⟩
  rw [writeFrame, huint, putInt_uint (by rw [hlen]), List.append_assoc, ← append_of_run_readFull hpayload,
    ← append_of_run_readFull hheader]

-- The payloads of the frames that a stream begins with.
def readFrames (bs : Bytes) : List Bytes :=
  go bs.length bs
where
  go : Nat → Bytes → List Bytes
    | 0, _ => []
    | fuel + 1, bs =>
      match readFrame.run bs with
      | .error _            => []
      | .ok (payload, rest) => payload :: go fuel rest

theorem length_writeFrame (payload : Bytes) : (writeFrame payload).length = 4 + payload.length := by
  simp [writeFrame]

theorem readFrames_go {fuel : Nat} (h : ∀ p ∈ ps, Reads readFrame (writeFrame p) p) (hfuel : ps.length ≤ fuel) :
    readFrames.go fuel (ps.flatMap writeFrame) = ps := by
  induction ps generalizing fuel
  case nil =>
    cases fuel
    case zero   => rfl
    case succ n => rfl
  case cons p ps hi =>
    obtain ⟨fuel, rfl⟩ : ∃ n, fuel = n + 1 := ⟨fuel - 1, by simp at hfuel; omega⟩
    have hread := h p List.mem_cons_self (ps.flatMap writeFrame)
    rw [List.flatMap_cons, readFrames.go, hread]
    have hrest := hi (fun p hp => h p (List.mem_cons_of_mem _ hp)) (by simpa using hfuel)
    simp only [hrest]

theorem readFrames_flatMap (h : ∀ p ∈ ps, Reads readFrame (writeFrame p) p) :
    readFrames (ps.flatMap writeFrame) = ps := by
  refine readFrames_go h ?_
  induction ps
  case nil => exact Nat.le_refl 0
  case cons p ps hi =>
    have := hi fun p hp => h p (List.mem_cons_of_mem _ hp)
    rw [List.flatMap_cons, List.length_append, length_writeFrame, List.length_cons]
    omega

theorem rest_of_run_readInt {w : Nat} {n : Int}
    (h : (readInt w : Decoder Int).run bs = .ok (n, rest)) : rest = bs.drop (w / 8) ∧ w / 8 ≤ bs.length := by
  obtain ⟨xs, rest', hfull, hpure⟩ := run_bind_eq_ok h
  cases hpure
  have hlen := length_of_run_readFull hfull
  have heq := append_of_run_readFull hfull
  exact ⟨(eq_of_run_readFull hfull).right, by rw [heq, List.length_append]; omega⟩

theorem correlationID_of_readRequestHeader {header : RequestHeader}
    (h : (readRequestHeader : Decoder RequestHeader).run payload = .ok (header, rest)) :
    writeInt32 header.correlationID = slice payload 4 8 := by
  obtain ⟨apiKey, rest₁, hkey, h₁⟩ := run_bind_eq_ok h
  obtain ⟨apiVersion, rest₂, hversion, h₂⟩ := run_bind_eq_ok h₁
  obtain ⟨correlationID, rest₃, hid, h₃⟩ := run_bind_eq_ok h₂
  obtain ⟨clientID, rest₄, -, h₄⟩ := run_bind_eq_ok h₃
  cases h₄
  have hrest : rest₂ = payload.drop 4 := by
    rw [(rest_of_run_readInt hversion).left, (rest_of_run_readInt hkey).left, List.drop_drop]
  have hlen := (rest_of_run_readInt hid).right
  rw [eq_of_run_readInt hid, writeInt32, hrest]
  refine putInt_sint ?_
  rw [List.length_take_of_le (by rwa [hrest] at hlen)]

-- What fits into the fields of the header.
structure RequestHeader.Valid (header : RequestHeader) : Prop where
  apiKey        : -2 ^ 15 ≤ header.apiKey ∧ header.apiKey < 2 ^ 15
  apiVersion    : -2 ^ 15 ≤ header.apiVersion ∧ header.apiVersion < 2 ^ 15
  correlationID : IsInt32 header.correlationID
  clientID      : ∀ clientID ∈ header.clientID, clientID.length < 2 ^ 15

theorem reads_of_isInt16 {x : Int} (h : -2 ^ 15 ≤ x ∧ x < 2 ^ 15) : Reads readInt16 (writeInt16 x) x := by
  have hread := reads_readInt16 x
  rwa [wrap_of_mem (by decide) h.left h.right] at hread

theorem reads_readRequestHeader {header : RequestHeader} (h : header.Valid) :
    Reads readRequestHeader (writeRequestHeader header) header := by
  rw [writeRequestHeader, List.append_assoc, List.append_assoc]
  refine (reads_of_isInt16 h.apiKey).bind ((reads_of_isInt16 h.apiVersion).bind ?_)
  exact (reads_of_isInt32 h.correlationID).bind ((reads_readNullableString h.clientID).bind_pure _)

end Protocol
