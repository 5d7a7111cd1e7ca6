import Gokaf.Protocol.Types

open Go

namespace Protocol

variable {α β : Type} {bs rest : Bytes}

-- A decoder that reads the value `a` off the front of `bs`, whatever follows.
def Reads (d : Decoder α) (bs : Bytes) (a : α) : Prop :=
  ∀ rest, d.run (bs ++ rest) = .ok (a, rest)

theorem Reads.run_bind {d : Decoder α} {a : α} (h : Reads d bs a) (f : α → Decoder β) :
    (d >>= f).run (bs ++ rest) = (f a).run rest := by
  rw [StateT.run_bind, h]
  rfl

theorem Reads.bind_pure {d : Decoder α} {a : α} (h : Reads d bs a) (f : α → β) :
    Reads (d >>= fun a => pure (f a)) bs (f a) :=
  fun _ => h.run_bind _

theorem Reads.bind {d : Decoder α} {f : α → Decoder β} {a : α} {b : β} {cs : Bytes} (h : Reads d bs a)
    (h' : Reads (f a) cs b) : Reads (d >>= f) (bs ++ cs) b := by
  intro rest
  rw [List.append_assoc, h.run_bind]
  exact h' rest

theorem reads_pure (a : α) : Reads (pure a) [] a :=
  fun _ => rfl

theorem reads_makeSlice {n : Int} (hn : 0 ≤ n) : Reads (makeSlice n) [] () := by
  intro rest
  rw [makeSlice, if_neg (by omega)]
  rfl

-- As many rounds as there are values read them all.
theorem reads_rounds_map {d : Decoder α} {write : β → Bytes} {f : β → α} {bs : List β}
    (h : ∀ b ∈ bs, Reads d (write b) (f b)) : Reads (rounds d bs.length) (bs.flatMap write) (bs.map f) := by
  induction bs
  case nil => exact reads_pure []
  case cons b bs hi =>
    have hrest := hi fun b hb => h b (List.mem_cons_of_mem _ hb)
    exact (h b List.mem_cons_self).bind (hrest.bind_pure (f b :: ·))

theorem reads_rounds {d : Decoder α} {write : α → Bytes} {as : List α} (h : ∀ a ∈ as, Reads d (write a) a) :
    Reads (rounds d as.length) (as.flatMap write) as := by
  have hmap := reads_rounds_map h
  rwa [List.map_id'] at hmap

theorem reads_forRange {d : Decoder α} {write : α → Bytes} {as : List α} (h : ∀ a ∈ as, Reads d (write a) a) :
    Reads (forRange as.length d) (as.flatMap write) as := by
  rw [forRange, Int.toNat_natCast]
  exact reads_rounds h

theorem reads_readFull (bs : Bytes) : Reads (readFull bs.length) bs bs := by
  intro rest
  simp [readFull]
  rfl

theorem reads_readInt {w : Nat} (x : Int) (hw : 8 ∣ w) : Reads (readInt w) (putInt w x) (wrap w x) := by
  have h := reads_readFull (putInt w x)
  rw [length_putInt] at h
  rw [← sint_putInt x hw]
  exact h.bind_pure (sint w)

theorem reads_readInt8 (x : Int) : Reads readInt8 (writeInt8 x) (wrap 8 x) :=
  reads_readInt x (by decide)

theorem reads_readInt16 (x : Int) : Reads readInt16 (writeInt16 x) (wrap 16 x) :=
  reads_readInt x (by decide)

theorem reads_readInt32 (x : Int) : Reads readInt32 (writeInt32 x) (wrap 32 x) :=
  reads_readInt x (by decide)

theorem reads_of_isInt32 {x : Int} (h : IsInt32 x) : Reads readInt32 (writeInt32 x) x := by
  have hreads := reads_readInt32 x
  rwa [wrap_of_mem (by decide) h.left h.right] at hreads

theorem reads_readInt64 (x : Int) : Reads readInt64 (writeInt64 x) (wrap 64 x) :=
  reads_readInt x (by decide)

theorem reads_readArrayLen (n : Int) : Reads readArrayLen (writeArrayLen n) (int32 n) := by
  have h := reads_readInt32 (int32 n)
  rwa [int32, wrap_wrap] at h

theorem reads_readArrayLen_of_lt {n : Nat} (h : n < 2 ^ 31) : Reads readArrayLen (writeArrayLen n) n := by
  have hreads := reads_readArrayLen n
  rwa [int32, wrap_of_nonneg (by decide) (by omega) (by omega)] at hreads

theorem reads_length16 {n : Nat} (h : n < 2 ^ 15) : Reads readInt16 (writeInt16 (int16 n)) n := by
  have hlen : wrap 16 (int16 n) = n := by
    rw [int16, wrap_wrap]
    exact wrap_of_nonneg (by decide) (by omega) (by omega)
  have hreads := reads_readInt16 (int16 n)
  rwa [hlen] at hreads

theorem reads_readString {s : Bytes} (hs : s.length < 2 ^ 15) : Reads readString (writeString s) s := by
  refine (reads_length16 hs).bind ?_
  rw [if_neg (by omega), Int.toNat_natCast]
  exact reads_readFull s

theorem reads_readNullableString {s : Option Bytes} (hs : ∀ s' ∈ s, s'.length < 2 ^ 15) :
    Reads readNullableString (writeNullableString s) s := by
  cases s
  case none =>
    rw [writeNullableString, ← List.append_nil (writeInt16 (-1))]
    refine (reads_readInt16 (-1)).bind ?_
    rw [if_pos (by decide)]
    exact reads_pure none
  case some s =>
    refine (reads_length16 (hs s rfl)).bind ?_
    rw [if_neg (by omega), Int.toNat_natCast]
    exact (reads_readFull s).bind_pure some

-- A nil slice comes back as an empty one.
theorem reads_readBytes {b : Option Bytes} (hb : (b.getD []).length < 2 ^ 31) :
    Reads readBytes (writeBytes b) (some (b.getD [])) := by
  refine (reads_readArrayLen_of_lt hb).bind ?_
  rw [if_neg (by omega), Int.toNat_natCast]
  exact (reads_readFull _).bind_pure some

theorem run_readFull {n : Nat} (h : n ≤ bs.length) :
    (readFull n : Decoder _).run bs = .ok (bs.take n, bs.drop n) := by
  have hfull := reads_readFull (bs.take n) (bs.drop n)
  rwa [List.length_take, Nat.min_eq_left h, List.take_append_drop] at hfull

theorem run_readFull_of_lt {n : Nat} (h : bs.length < n) :
    ∃ e, (readFull n : Decoder _).run bs = .error (.error e) := by
  by_cases hbs : bs = []
  case pos =>
    have hn : n ≠ 0 := Nat.ne_of_gt (Nat.zero_lt_of_lt h)
    refine ⟨.eof, ?_⟩
    simp [readFull, hbs, hn]
    rfl
  case neg =>
    refine ⟨.unexpectedEOF, ?_⟩
    simp [readFull, Nat.not_le.mpr h, hbs]
    rfl

theorem eq_of_run_readFull {n : Nat} {xs : Bytes} (h : (readFull n : Decoder _).run bs = .ok (xs, rest)) :
    xs = bs.take n ∧ rest = bs.drop n := by
  cases Nat.lt_or_ge bs.length n
  case inl hlt =>
    have ⟨e, he⟩ := run_readFull_of_lt hlt
    rw [he] at h
    contradiction
  case inr hle =>
    rw [run_readFull hle] at h
    cases h
    exact ⟨rfl, rfl⟩

-- The same for a decoder that may be given less than what was written. It fails, or it reads the value.
def ReadsPart (d : Decoder α) (bs : Bytes) (a : α) : Prop :=
  ∀ tail part b rest, part <+: bs ++ tail → d.run part = .ok (b, rest) → b = a ∧ rest <+: tail

theorem run_bind_eq_ok {d : Decoder α} {f : α → Decoder β} {b : β} (h : (d >>= f).run bs = .ok (b, rest)) :
    ∃ a rest', d.run bs = .ok (a, rest') ∧ (f a).run rest' = .ok (b, rest) := by
  rw [StateT.run_bind] at h
  cases hd : d.run bs
  case error e =>
    rw [hd] at h
    contradiction
  case ok r =>
    rw [hd] at h
    exact ⟨r.fst, r.snd, rfl, h⟩

-- A decoder that does not look behind its value.
def Stable (d : Decoder α) : Prop :=
  ∀ bs a rest more, d.run bs = .ok (a, rest) → d.run (bs ++ more) = .ok (a, rest ++ more)

theorem stable_pure (a : α) : Stable (pure a) := by
  intro bs b rest more h
  cases h
  rfl

theorem stable_fail (e : Error) : Stable (fail e : Decoder α) := by
  intro bs a rest more h
  contradiction

theorem Stable.bind {d : Decoder α} {f : α → Decoder β} (h : Stable d) (hf : ∀ a, Stable (f a)) :
    Stable (d >>= f) := by
  intro bs b rest more hrun
  obtain ⟨a, rest', hd, hrest⟩ := run_bind_eq_ok hrun
  rw [StateT.run_bind, h bs a rest' more hd]
  exact hf a rest' b rest more hrest

theorem stable_readFull (n : Nat) : Stable (readFull n) := by
  intro bs xs rest more h
  obtain ⟨rfl, rfl⟩ := eq_of_run_readFull h
  have hle : n ≤ bs.length := by
    by_contra hlt
    obtain ⟨e, he⟩ := run_readFull_of_lt (not_le.mp hlt)
    rw [he] at h
    contradiction
  rw [run_readFull (by simp; omega), List.take_append_of_le_length hle, List.drop_append_of_le_length hle]

theorem stable_readInt (w : Nat) : Stable (readInt w) :=
  (stable_readFull (w / 8)).bind fun _ => stable_pure _

theorem stable_readBytes : Stable readBytes := by
  refine (stable_readInt 32).bind fun n => ?_
  split
  case isTrue  => exact stable_pure none
  case isFalse => exact (stable_readFull n.toNat).bind fun _ => stable_pure _

theorem Reads.part {d : Decoder α} {a : α} (h : Reads d bs a) (hd : Stable d) : ReadsPart d bs a := by
  rintro tail part b rest ⟨more, hmore⟩ hrun
  have hwhole := hd part b rest more hrun
  rw [hmore, h tail] at hwhole
  cases hwhole
  exact ⟨rfl, List.prefix_append rest more⟩

theorem readsPart_readArrayLen (n : Int) : ReadsPart readArrayLen (writeArrayLen n) (int32 n) :=
  (reads_readArrayLen n).part (stable_readInt 32)

theorem readsPart_readBytes {bs : Bytes} (hlen : bs.length < 2 ^ 31) :
    ReadsPart readBytes (writeBytes (some bs)) (some bs) :=
  (reads_readBytes (b := some bs) hlen).part stable_readBytes

-- The length is written with 32 bits, so a longer slice does not come back as a whole.
theorem run_readBytes_writeBytes (b : Option Bytes) :
    ∃ b' rest, (readBytes : Decoder _).run (writeBytes b) = .ok (b', rest) ∧ b'.getD [] <+: b.getD [] := by
  rw [writeBytes]
  generalize b.getD [] = bs
  have h := reads_readInt32 (int32 bs.length)
  have hle := wrap_le_of_nonneg 32 (Int.natCast_nonneg bs.length)
  rw [int32, wrap_wrap] at h
  obtain ⟨n, hn⟩ : ∃ n, wrap 32 bs.length = n := ⟨_, rfl⟩
  rw [hn] at h hle
  rw [readBytes, int32, hn, h.run_bind]
  by_cases hneg : n < 0
  case pos =>
    refine ⟨none, bs, ?_, List.nil_prefix⟩
    rw [if_pos hneg]
    rfl
  case neg =>
    refine ⟨some (bs.take n.toNat), bs.drop n.toNat, ?_, List.take_prefix n.toNat bs⟩
    rw [if_neg hneg, StateT.run_bind, run_readFull (by omega)]
    rfl

end Protocol
