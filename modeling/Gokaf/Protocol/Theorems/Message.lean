import Gokaf.Protocol.Message
import Gokaf.Protocol.Theorems.Layout
import Gokaf.Protocol.Theorems.Varint

open Go

namespace Protocol

section Compact

theorem toNat_succ {n : Nat} (h : n < 2 ^ 31 - 1) : (UInt32.ofNat n + 1).toNat = n + 1 := by
  have hone : (1 : UInt32).toNat = 1 := rfl
  rw [UInt32.toNat_add, UInt32.toNat_ofNat', hone, Nat.mod_eq_of_lt (show n < 2 ^ 32 by omega)]
  exact Nat.mod_eq_of_lt (by omega)

theorem succ_ne_zero {n : Nat} (h : n < 2 ^ 31 - 1) : UInt32.ofNat n + 1 ≠ 0 := by
  intro hzero
  have hn := toNat_succ h
  rw [hzero] at hn
  exact absurd hn (by simp)

-- The length of a compact string is written one larger.
theorem reads_readCompactString {s : Bytes} (hs : s.length < 2 ^ 31 - 1) :
    Reads readCompactString (writeCompactString s) s := by
  refine (reads_readUnsignedVarint _).bind ?_
  have hlen : (UInt32.ofNat s.length + 1 - 1).toNat = s.length := by
    rw [UInt32.add_sub_cancel, UInt32.toNat_ofNat', Nat.mod_eq_of_lt (by omega)]
  rw [if_neg (succ_ne_zero hs), hlen]
  exact reads_readFull s

theorem reads_readCompactNullableString {s : Option Bytes} (hs : ∀ s' ∈ s, s'.length < 2 ^ 31 - 1) :
    Reads readCompactNullableString (writeCompactNullableString s) s := by
  cases s
  case none =>
    rw [writeCompactNullableString, ← List.append_nil (writeUnsignedVarint 0)]
    exact (reads_readUnsignedVarint 0).bind (reads_pure none)
  case some s =>
    refine (reads_readUnsignedVarint _).bind ?_
    have hlen : (UInt32.ofNat s.length + 1 - 1).toNat = s.length := by
      have := hs s rfl
      rw [UInt32.add_sub_cancel, UInt32.toNat_ofNat', Nat.mod_eq_of_lt (by omega)]
    rw [if_neg (succ_ne_zero (hs s rfl)), hlen]
    exact (reads_readFull s).bind_pure some

theorem reads_readCompactArrayLen {n : Int} (hl : -1 ≤ n) (hu : n ≤ 2 ^ 31 - 2) :
    Reads readCompactArrayLen (writeCompactArrayLen n) n := by
  have hread := (reads_readUnsignedVarint (UInt32.ofNat (unsigned 32 (n + 1)))).bind_pure fun v => (v.toNat : Int) - 1
  have hval : ((UInt32.ofNat (unsigned 32 (n + 1))).toNat : Int) - 1 = n := by
    rw [UInt32.toNat_ofNat', Nat.mod_eq_of_lt (unsigned_lt 32 _), unsigned_cast]
    omega
  rwa [hval] at hread

end Compact

-- A decoder that fails with an error, if it fails, and does not look behind its value.
structure Orderly {α : Type} (d : Decoder α) : Prop where
  stable : Stable d
  plain  : Plain d

section Orderly

variable {α β : Type}

theorem orderly_pure (a : α) : Orderly (pure a) :=
  ⟨stable_pure a, plain_pure a⟩

theorem orderly_fail (e : Error) : Orderly (fail e : Decoder α) :=
  ⟨stable_fail e, plain_fail e⟩

theorem orderly_readFull (n : Nat) : Orderly (readFull n) :=
  ⟨stable_readFull n, plain_readFull n⟩

theorem Orderly.bind {d : Decoder α} {f : α → Decoder β} (h : Orderly d) (hf : ∀ a, Orderly (f a)) :
    Orderly (d >>= f) :=
  ⟨h.stable.bind fun a => (hf a).stable, h.plain.bind fun a => (hf a).plain⟩

theorem Orderly.map {d : Decoder α} (h : Orderly d) (f : α → β) : Orderly (d >>= fun a => pure (f a)) :=
  h.bind fun a => orderly_pure (f a)

theorem orderly_ite {p : Prop} [Decidable p] {d d' : Decoder α} (h : Orderly d) (h' : Orderly d') :
    Orderly (if p then d else d') := by
  split
  case isTrue  => exact h
  case isFalse => exact h'

theorem orderly_readInt (w : Nat) : Orderly (readInt w) :=
  (orderly_readFull (w / 8)).map (sint w)

theorem orderly_readUnsignedVarint_go (fuel : Nat) (result shift : UInt32) :
    Orderly (readUnsignedVarint.go fuel result shift) := by
  induction fuel generalizing result shift
  case zero => exact orderly_fail .varintTooLong
  case succ fuel hi =>
    refine ((orderly_readFull 1).map (·.headD 0)).bind fun b => ?_
    exact orderly_ite (orderly_pure _) (hi _ _)

theorem orderly_readUnsignedVarint : Orderly readUnsignedVarint :=
  orderly_readUnsignedVarint_go maxVarintBytes 0 0

theorem orderly_read (kind : Kind) : Orderly kind.read := by
  cases kind
  case int8           => exact (orderly_readInt 8).map Field.int8
  case int16          => exact (orderly_readInt 16).map Field.int16
  case int32          => exact (orderly_readInt 32).map Field.int32
  case int64          => exact (orderly_readInt 64).map Field.int64
  case unsignedVarint => exact orderly_readUnsignedVarint.map Field.unsignedVarint
  case varint         => exact (orderly_readUnsignedVarint.map unzigzag).map Field.varint
  case string =>
    refine ((orderly_readInt 16).bind fun n => ?_).map Field.string
    exact orderly_ite (orderly_fail _) (orderly_readFull n.toNat)
  case nullableString =>
    refine ((orderly_readInt 16).bind fun n => ?_).map Field.nullableString
    exact orderly_ite (orderly_pure none) ((orderly_readFull n.toNat).map some)
  case bytes =>
    refine ((orderly_readInt 32).bind fun n => ?_).map fun (b : Option Bytes) => Field.bytes (b.getD [])
    exact orderly_ite (orderly_pure none) ((orderly_readFull n.toNat).map some)
  case compactString =>
    refine (orderly_readUnsignedVarint.bind fun n => ?_).map Field.compactString
    exact orderly_ite (orderly_fail _) (orderly_readFull (n - 1).toNat)
  case compactNullableString =>
    refine (orderly_readUnsignedVarint.bind fun n => ?_).map Field.compactNullableString
    exact orderly_ite (orderly_pure none) ((orderly_readFull (n - 1).toNat).map some)
  case arrayLen        => exact (orderly_readInt 32).map Field.arrayLen
  case compactArrayLen => exact (orderly_readUnsignedVarint.map fun n => (n.toNat : Int) - 1).map Field.compactArrayLen

end Orderly

namespace Field

variable {f : Field}

theorem Valid.reads (h : f.Valid) : Reads f.kind.read f.write f := by
  cases f
  case int8 x =>
    have hread := (reads_readInt8 x).bind_pure Field.int8
    rwa [wrap_of_mem (by decide) h.left h.right] at hread
  case int16 x =>
    have hread := (reads_readInt16 x).bind_pure Field.int16
    rwa [wrap_of_mem (by decide) h.left h.right] at hread
  case int32 x => exact (reads_of_isInt32 h).bind_pure Field.int32
  case int64 x =>
    have hread := (reads_readInt64 x).bind_pure Field.int64
    rwa [wrap_of_mem (by decide) h.left h.right] at hread
  case unsignedVarint x        => exact (reads_readUnsignedVarint x).bind_pure Field.unsignedVarint
  case varint x                => exact (reads_readVarint h).bind_pure Field.varint
  case string s                => exact (reads_readString (Nat.lt_succ_of_le h)).bind_pure Field.string
  case nullableString s        =>
    exact (reads_readNullableString fun s' hs => Nat.lt_succ_of_le (h s' hs)).bind_pure Field.nullableString
  case bytes b                 =>
    exact (reads_readBytes (b := some b) (Nat.lt_of_lt_pred h)).bind_pure fun b => Field.bytes (b.getD [])
  case compactString s         => exact (reads_readCompactString h).bind_pure Field.compactString
  case compactNullableString s => exact (reads_readCompactNullableString h).bind_pure Field.compactNullableString
  case arrayLen n =>
    have hread := (reads_readArrayLen n).bind_pure Field.arrayLen
    obtain ⟨hl, hu⟩ := h
    rwa [Go.int32, wrap_of_mem (by decide) (by omega) (by omega)] at hread
  case compactArrayLen n => exact (reads_readCompactArrayLen h.left h.right).bind_pure Field.compactArrayLen

end Field

variable {fields : List Field}

theorem run_readFields_cons {kind : Kind} {kinds : List Kind} {bs rest : Bytes} {f : Field}
    (h : kind.read.run bs = .ok (f, rest)) :
    (readFields (kind :: kinds)).run bs = ((readFields kinds).run rest).map fun r => (f :: r.fst, r.snd) := by
  rw [readFields, List.mapM_cons, StateT.run_bind, h, ← readFields]
  change ((readFields kinds >>= fun fields => pure (f :: fields)).run rest) = _
  rw [StateT.run_bind]
  cases (readFields kinds).run rest
  case error fault => rfl
  case ok r        => rfl

theorem reads_readFields (h : ∀ f ∈ fields, f.Valid) :
    Reads (readFields (fields.map Field.kind)) (writeFields fields) fields := by
  induction fields
  case nil => exact reads_pure []
  case cons f fields hi =>
    obtain ⟨hf, hfields⟩ := List.forall_mem_cons.mp h
    have hrest := (hi hfields).bind_pure fun fields => f :: fields
    rw [readFields, List.map_cons, List.mapM_cons]
    exact hf.reads.bind hrest

-- If bytes are missing at the end, the fields that are there as a whole are read and the next one is not.
theorem readFields_truncated {part : Bytes} (h : ∀ f ∈ fields, f.Valid) (hpart : part <+: writeFields fields)
    (hne : part ≠ writeFields fields) :
    ∃ before f after rest e, fields = before ++ f :: after ∧
      (readFields (before.map Field.kind)).run part = .ok (before, rest) ∧
      f.kind.read.run rest = .error (.error e) ∧
      (readFields (fields.map Field.kind)).run part = .error (.error e) := by
  induction fields generalizing part
  case nil => exact absurd (List.prefix_nil.mp hpart) hne
  case cons f fields hi =>
    obtain ⟨hf, hfields⟩ := List.forall_mem_cons.mp h
    obtain ⟨more, hmore⟩ := hpart
    have hread := orderly_read f.kind
    cases hrun : f.kind.read.run part
    case error fault =>
      obtain ⟨e, rfl⟩ := hread.plain part fault hrun
      refine ⟨[], f, fields, part, e, rfl, rfl, hrun, ?_⟩
      rw [readFields, List.map_cons, List.mapM_cons, StateT.run_bind, hrun]
      rfl
    case ok r =>
      obtain ⟨f', rest⟩ := r
      have hwhole := hread.stable part f' rest more hrun
      rw [hmore, writeFields, List.flatMap_cons, hf.reads] at hwhole
      injection hwhole with hwhole
      obtain ⟨rfl, hrest⟩ := Prod.mk.inj hwhole
      have hmore' : more ≠ [] := by
        rintro rfl
        exact hne (by rw [← hmore, List.append_nil])
      have hne' : rest ≠ writeFields fields := by
        intro heq
        rw [writeFields, hrest] at heq
        exact hmore' (List.append_right_eq_self.mp heq.symm)
      obtain ⟨before, g, after, rest', e, rfl, hbefore, hg, hall⟩ := hi hfields ⟨more, hrest.symm⟩ hne'
      refine ⟨f :: before, g, after, rest', e, rfl, ?_, hg, ?_⟩
      · rw [List.map_cons, run_readFields_cons hrun, hbefore]
        rfl
      · rw [List.map_cons, run_readFields_cons hrun, hall]
        rfl

-- What is written field by field is read back, and nothing else is ever read from the beginning of it.
theorem fields_roundTrip (h : ∀ f ∈ fields, f.Valid) :
    (∀ rest, (readFields (fields.map Field.kind)).run (writeFields fields ++ rest) = .ok (fields, rest)) ∧
    ∀ part, part <+: writeFields fields → part ≠ writeFields fields →
      ∃ before f after rest e, fields = before ++ f :: after ∧
        (readFields (before.map Field.kind)).run part = .ok (before, rest) ∧
        f.kind.read.run rest = .error (.error e) ∧
        (readFields (fields.map Field.kind)).run part = .error (.error e) :=
  ⟨reads_readFields h, fun _ => readFields_truncated h⟩

def sampleFields : List Field :=
  [.int8 (-128), .unsignedVarint 300, .varint (-1), .nullableString none, .compactString [97], .compactArrayLen (-1)]

theorem fields_roundTrip_sample :
    (∀ f ∈ sampleFields, f.Valid) ∧
      ∀ rest, (readFields (sampleFields.map Field.kind)).run (writeFields sampleFields ++ rest) =
        .ok (sampleFields, rest) := by
  have hvalid : ∀ f ∈ sampleFields, f.Valid := by
    simp [sampleFields, Field.Valid]
  exact ⟨hvalid, (fields_roundTrip hvalid).left⟩

end Protocol
