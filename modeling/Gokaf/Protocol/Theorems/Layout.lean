import Gokaf.Protocol.Layout
import Gokaf.Protocol.Theorems.Effect
import Gokaf.Protocol.Theorems.Types

open Go Effect

namespace Protocol

variable {σ τ α β : Type}

namespace Extent

-- A reader ends where the fields do, with an error if they are cut short and in a panic if it makes a slice of
-- negative length.
inductive Matches : Extent → Except Fault (α × Bytes) → Prop
  | ends (a : α) (rest : Bytes) : Matches (.ends rest) (.ok (a, rest))
  | cut (e : Error) : Matches .cut (.error (.error e))
  | negative (n : Int) : Matches (.negative n) (.error (.panic (.makeSlice n)))

theorem Matches.bind {e : Extent} {k : Bytes → Extent} {out : Except Fault (α × Bytes)}
    {out' : Except Fault (β × Bytes)} (h : e.Matches out)
    (hok : ∀ a rest, out = .ok (a, rest) → (k rest).Matches out')
    (herror : ∀ fault, out = .error fault → out' = .error fault) : (e.bind k).Matches out' := by
  cases h
  case ends a rest => exact hok a rest rfl
  case cut e =>
    rw [herror _ rfl]
    exact .cut e
  case negative n =>
    rw [herror _ rfl]
    exact .negative n

theorem bind_ends (e : Extent) : e.bind .ends = e := by
  cases e <;> rfl

theorem Matches.survives_iff {e : Extent} {out : Except Fault (α × Bytes)} (h : e.Matches out) :
    Survives out ↔ ∀ n, e ≠ .negative n := by
  cases h
  case ends a rest => simp
  case cut e       => simp
  case negative n  => simp

end Extent

variable {f f' : Layout}

section Decoder

-- The decoder reads the fields of the layout.
def Decodes (d : Decoder α) (f : Layout) : Prop :=
  ∀ bs, (f.scan bs).Matches (d.run bs)

theorem matches_run_bind {d : Decoder α} {g : α → Decoder β} {e : Extent} {k : Bytes → Extent} {bs : Bytes}
    (hd : e.Matches (d.run bs)) (hg : ∀ a rest, d.run bs = .ok (a, rest) → (k rest).Matches ((g a).run rest)) :
    (e.bind k).Matches ((d >>= g).run bs) := by
  rw [StateT.run_bind]
  refine hd.bind (fun a rest hok => ?_) fun fault herror => ?_
  · rw [hok]
    exact hg a rest hok
  · rw [herror]
    rfl

theorem Decodes.bind {d : Decoder α} {g : α → Decoder β} (hd : Decodes d f) (hg : ∀ a, Decodes (g a) f') :
    Decodes (d >>= g) (f ++ f') :=
  fun bs => matches_run_bind (hd bs) fun a rest _ => hg a rest

theorem Decodes.map {d : Decoder α} (hd : Decodes d f) (g : α → β) : Decodes (d >>= fun a => pure (g a)) f := by
  intro bs
  rw [← (f.scan bs).bind_ends]
  exact matches_run_bind (hd bs) fun a rest _ => .ends (g a) rest

theorem decodes_pure (a : α) : Decodes (pure a) .none :=
  fun bs => .ends a bs

theorem Decodes.rounds {d : Decoder α} (hd : Decodes d f) (n : Nat) (bs : Bytes) :
    (Extent.times f.scan n bs).Matches ((Go.rounds d n).run bs) := by
  induction n generalizing bs
  case zero => exact .ends [] bs
  case succ n hi =>
    refine matches_run_bind (hd bs) fun a rest _ => ?_
    rw [← (Extent.times f.scan n rest).bind_ends]
    exact matches_run_bind (hi rest) fun as rest' _ => .ends (a :: as) rest'

theorem matches_readFull (n : Nat) (bs : Bytes) : (Layout.skip n bs).Matches ((readFull n : Decoder Bytes).run bs) := by
  rw [Layout.skip]
  by_cases h : n ≤ bs.length
  case pos =>
    rw [if_pos h, run_readFull h]
    exact .ends _ _
  case neg =>
    obtain ⟨e, he⟩ := run_readFull_of_lt (not_le.mp h)
    rw [if_neg h, he]
    exact .cut e

theorem decodes_readFull (n : Nat) : Decodes (readFull n) (.fixed n) :=
  matches_readFull n

theorem decodes_readInt (w : Nat) : Decodes (readInt w) (.fixed (w / 8)) :=
  (decodes_readFull (w / 8)).map (sint w)

theorem eq_of_run_readInt {w : Nat} {bs rest : Bytes} {n : Int} (h : (readInt w : Decoder Int).run bs = .ok (n, rest)) :
    n = sint w (bs.take (w / 8)) := by
  obtain ⟨bytes, rest', hfull, hpure⟩ := run_bind_eq_ok h
  obtain ⟨hbytes, _⟩ := eq_of_run_readFull hfull
  cases hpure
  rw [hbytes]

-- A length, and what its reader does with it.
theorem matches_readInt_bind {w : Nat} {g : Int → Decoder α} {k : Int → Bytes → Extent}
    (hg : ∀ n rest, (k n rest).Matches ((g n).run rest)) (bs : Bytes) :
    ((Layout.skip (w / 8) bs).bind (k (sint w (bs.take (w / 8))))).Matches ((readInt w >>= g).run bs) := by
  refine matches_run_bind (decodes_readInt w bs) fun n rest hrun => ?_
  rw [← eq_of_run_readInt hrun]
  exact hg n rest

theorem matches_counted (w : Nat) (nullable : Bool) {g : Int → Decoder α}
    (hnull : ∀ n rest, n < 0 → (if nullable then Extent.ends rest else .cut).Matches ((g n).run rest))
    (hg : ∀ n rest, ¬n < 0 → (Layout.skip n.toNat rest).Matches ((g n).run rest)) (bs : Bytes) :
    (Layout.skipCounted w nullable bs).Matches ((readInt w >>= g).run bs) := by
  refine matches_readInt_bind (k := fun n rest =>
    if n < 0 then (if nullable then .ends rest else .cut) else Layout.skip n.toNat rest) (fun n rest => ?_) bs
  by_cases hn : n < 0
  case pos =>
    rw [if_pos hn]
    exact hnull n rest hn
  case neg =>
    rw [if_neg hn]
    exact hg n rest hn

theorem decodes_readString : Decodes readString .string := by
  refine matches_counted 16 false (fun n rest hn => ?_) fun n rest hn => ?_
  · rw [if_pos hn]
    exact .cut _
  · rw [if_neg hn]
    exact matches_readFull n.toNat rest

theorem decodes_readNullableString : Decodes readNullableString .nullableString := by
  refine matches_counted 16 true (fun n rest hn => ?_) fun n rest hn => ?_
  · rw [if_pos hn]
    exact .ends none rest
  · rw [if_neg hn]
    exact (decodes_readFull n.toNat).map some rest

theorem decodes_readBytes : Decodes readBytes .bytes := by
  refine matches_counted 32 true (fun n rest hn => ?_) fun n rest hn => ?_
  · rw [if_pos hn]
    exact .ends none rest
  · rw [if_neg hn]
    exact (decodes_readFull n.toNat).map some rest

end Decoder

section Varint

-- A decoder that fails only with errors.
def Plain (d : Decoder α) : Prop :=
  ∀ bs fault, d.run bs = .error fault → ∃ e, fault = .error e

theorem Plain.bind {d : Decoder α} {g : α → Decoder β} (hd : Plain d) (hg : ∀ a, Plain (g a)) : Plain (d >>= g) := by
  intro bs fault h
  rw [StateT.run_bind] at h
  cases hrun : d.run bs
  case error fault' =>
    rw [hrun] at h
    obtain rfl : fault' = fault := Except.error.inj h
    exact hd bs fault' hrun
  case ok r =>
    rw [hrun] at h
    exact hg r.fst r.snd fault h

theorem plain_pure (a : α) : Plain (pure a) := by
  intro bs fault h
  contradiction

theorem Decodes.plain {d : Decoder α} (hd : Decodes d f) (hf : ∀ bs n, f.scan bs ≠ .negative n) : Plain d := by
  intro bs fault h
  have hm := hd bs
  rw [h] at hm
  cases hext : f.scan bs <;> rw [hext] at hm <;> cases hm
  case cut e      => exact ⟨e, rfl⟩
  case negative n => exact absurd hext (hf bs n)

theorem plain_fail (e : Error) : Plain (fail e : Decoder α) :=
  fun _ _ h => ⟨e, (Except.error.inj h).symm⟩

theorem plain_readFull (n : Nat) : Plain (readFull n) := by
  refine (decodes_readFull n).plain fun bs n => ?_
  rw [Layout.scan, Layout.skip]
  split <;> simp

theorem plain_readByte : Plain readByte :=
  (plain_readFull 1).bind fun _ => plain_pure _

theorem plain_readUnsignedVarint_go (fuel : Nat) (result shift : UInt32) :
    Plain (readUnsignedVarint.go fuel result shift) := by
  induction fuel generalizing result shift
  case zero => exact plain_fail .varintTooLong
  case succ fuel hi =>
    refine plain_readByte.bind fun b => ?_
    dsimp only
    split
    case isTrue  => exact plain_pure _
    case isFalse => exact hi _ _

theorem plain_readVarint : Plain readVarint :=
  (plain_readUnsignedVarint_go maxVarintBytes 0 0).bind fun z => plain_pure (unzigzag z)

theorem matches_readVarint_bind {g : Int → Decoder α} {k : Int → Bytes → Extent}
    (hg : ∀ n rest, (k n rest).Matches ((g n).run rest)) (bs : Bytes) :
    (Layout.skipVarint k bs).Matches ((readVarint >>= g).run bs) := by
  rw [Layout.skipVarint, StateT.run_bind]
  cases hrun : (readVarint : Decoder Int).run bs
  case error fault =>
    obtain ⟨e, rfl⟩ := plain_readVarint bs fault hrun
    exact .cut e
  case ok r => exact hg r.fst r.snd

theorem decodes_readVarint : Decodes readVarint .varint := by
  intro bs
  have h := matches_readVarint_bind (g := pure) (k := fun _ rest => .ends rest) (fun n rest => .ends n rest) bs
  rwa [bind_pure] at h

end Varint

section Effect

-- The same for a computation that also has a state.
def Follows (x : Effect σ α) (f : Layout) : Prop :=
  ∀ bs s, (f.scan bs).Matches (x.exec bs s).fst

theorem Decodes.follows {x : Effect σ α} {d : Decoder α} (hd : Decodes d f) (h : Stateless x d) : Follows x f := by
  intro bs s
  rw [h.exec]
  exact hd bs

theorem Follows.decodes {x : Effect Unit α} {d : Decoder α} (hx : Follows x f) (h : Stateless x d) : Decodes d f := by
  intro bs
  have hm := hx bs ()
  rwa [h.exec] at hm

theorem follows_pure (a : α) : Follows (pure a : Effect σ α) .none :=
  fun bs _ => .ends a bs

theorem follows_update (g : σ → α × σ) : Follows (update g) .none :=
  fun bs s => .ends (g s).fst bs

theorem matches_exec_bind {x : Effect σ α} {g : α → Effect σ β} {e : Extent} {k : Bytes → Extent} {bs : Bytes} {s : σ}
    (hx : e.Matches (x.exec bs s).fst)
    (hg : ∀ a rest s', (x.exec bs s).fst = .ok (a, rest) → (k rest).Matches ((g a).exec rest s').fst) :
    (e.bind k).Matches ((x >>= g).exec bs s).fst := by
  rw [exec_bind]
  rcases hout : x.exec bs s with ⟨out, s'⟩
  rw [hout] at hx hg
  refine hx.bind (fun a rest hok => ?_) fun fault herror => ?_
  · have hok : out = .ok (a, rest) := hok
    rw [hok]
    exact hg a rest s' hok
  · have herror : out = .error fault := herror
    rw [herror]

theorem Follows.bind {x : Effect σ α} {g : α → Effect σ β} (hx : Follows x f) (hg : ∀ a, Follows (g a) f') :
    Follows (x >>= g) (f ++ f') :=
  fun bs s => matches_exec_bind (hx bs s) fun a rest s' _ => hg a rest s'

theorem Follows.bind_none {x : Effect σ α} {g : α → Effect σ β} (hx : Follows x f) (hg : ∀ a, Follows (g a) .none) :
    Follows (x >>= g) f := by
  intro bs s
  rw [← (f.scan bs).bind_ends]
  exact matches_exec_bind (hx bs s) fun a rest s' _ => hg a rest s'

theorem Follows.map {x : Effect σ α} (hx : Follows x f) (g : α → β) : Follows (x >>= fun a => pure (g a)) f :=
  hx.bind_none fun a => follows_pure (g a)

theorem Follows.last {x : Effect σ α} (hx : Follows x f) : Follows x (f ++ .none) := by
  intro bs s
  change ((f.scan bs).bind .ends).Matches _
  rw [Extent.bind_ends]
  exact hx bs s

theorem Follows.rounds {x : Effect σ α} (hx : Follows x f) (n : Nat) (bs : Bytes) (s : σ) :
    (Extent.times f.scan n bs).Matches ((Go.rounds x n).exec bs s).fst := by
  induction n generalizing bs s
  case zero => exact .ends [] bs
  case succ n hi =>
    refine matches_exec_bind (hx bs s) fun a rest s' _ => ?_
    rw [← (Extent.times f.scan n rest).bind_ends]
    exact matches_exec_bind (hi rest s') fun as rest' _ _ => .ends (a :: as) rest'

theorem follows_readInt (w : Nat) : Follows (readInt w : Effect σ Int) (.fixed (w / 8)) :=
  (decodes_readInt w).follows (stateless_readInt w)

theorem follows_readString : Follows (readString : Effect σ Bytes) .string :=
  decodes_readString.follows stateless_readString

theorem follows_readNullableString : Follows (readNullableString : Effect σ (Option Bytes)) .nullableString :=
  decodes_readNullableString.follows stateless_readNullableString

theorem follows_readBytes : Follows (readBytes : Effect σ (Option Bytes)) .bytes :=
  decodes_readBytes.follows stateless_readBytes

theorem matches_exec_readInt_bind {w : Nat} {g : Int → Effect σ α} {k : Int → Bytes → Extent}
    (hg : ∀ n rest s, (k n rest).Matches ((g n).exec rest s).fst) (bs : Bytes) (s : σ) :
    ((Layout.skip (w / 8) bs).bind (k (sint w (bs.take (w / 8))))).Matches ((readInt w >>= g).exec bs s).fst := by
  refine matches_exec_bind (follows_readInt w bs s) fun n rest s' hok => ?_
  rw [(stateless_readInt w).exec bs s] at hok
  rw [← eq_of_run_readInt hok]
  exact hg n rest s'

variable {x : Effect σ α} {g : List α → Effect σ β}

-- The number of elements, and what its reader does with it.
theorem follows_counted (sized : Bool) {g : Int → Effect σ β}
    (hg : ∀ n rest s, (if n < 0 then (if sized then .negative n else .ends rest)
      else Extent.times f.scan n.toNat rest).Matches ((g n).exec rest s).fst) :
    Follows (readArrayLen >>= g) (.array sized f) :=
  matches_exec_readInt_bind (w := 32) hg

theorem follows_sizedArray (hx : Follows x f) :
    Follows (do
      let n ← readArrayLen
      makeSlice n
      forRange n x) (.array true f) := by
  refine follows_counted true fun n rest s => ?_
  by_cases hn : n < 0
  case pos =>
    rw [if_pos hn, makeSlice, if_pos hn]
    exact .negative n
  case neg =>
    rw [if_neg hn, makeSlice, if_neg hn, pure_bind]
    exact hx.rounds n.toNat rest s

theorem follows_sizedArray_bind (hx : Follows x f) (hg : ∀ as, Follows (g as) f') :
    Follows (do
      let n ← readArrayLen
      makeSlice n
      let as ← forRange n x
      g as) (.array true f ++ f') := by
  have h := (follows_sizedArray hx).bind hg
  simpa only [bind_assoc] using h

-- The rounds of an array for which no slice is made.
theorem follows_array {g : Int → Effect σ β}
    (hg : ∀ n bs s, (Extent.times f.scan n.toNat bs).Matches ((g n).exec bs s).fst) :
    Follows (readArrayLen >>= g) (.array false f) := by
  refine follows_counted false fun n rest s => ?_
  have htimes : (if n < 0 then Extent.ends rest else Extent.times f.scan n.toNat rest) =
      Extent.times f.scan n.toNat rest := by
    split
    case isTrue hn => rw [Int.toNat_of_nonpos hn.le, Extent.times]
    case isFalse   => rfl
  change (if n < 0 then Extent.ends rest else Extent.times f.scan n.toNat rest).Matches _
  rw [htimes]
  exact hg n rest s

theorem Follows.rounds_map (hx : Follows x f) (g : List α → β) (n : Int) (bs : Bytes) (s : σ) :
    (Extent.times f.scan n.toNat bs).Matches ((forRange n x >>= fun as => pure (g as)).exec bs s).fst := by
  rw [← (Extent.times f.scan n.toNat bs).bind_ends]
  exact matches_exec_bind (hx.rounds n.toNat bs s) fun as rest _ _ => .ends (g as) rest

end Effect

section Guards

-- The computation panics at a slice of negative length, and nowhere else.
def Guards (x : Effect σ α) (f : Layout) : Prop :=
  ∀ bs s, Survives (x.exec bs s).fst ↔ ∀ n, f.scan bs ≠ .negative n

theorem Follows.guards {x : Effect σ α} (hx : Follows x f) : Guards x f :=
  fun bs s => (hx bs s).survives_iff

-- What is done once everything has been read may fail in other ways.
theorem guards_none {x : Effect σ α} (hx : ∀ bs s, Survives (x.exec bs s).fst) : Guards x .none := by
  refine fun bs s => iff_of_true (hx bs s) ?_
  rintro n ⟨⟩

theorem Follows.bind_guards {x : Effect σ α} {g : α → Effect σ β} (hx : Follows x f) (hg : ∀ a, Guards (g a) f') :
    Guards (x >>= g) (f ++ f') := by
  intro bs s
  have hm := hx bs s
  change _ ↔ ∀ n, (f.scan bs).bind f'.scan ≠ .negative n
  rw [exec_bind]
  rcases hout : x.exec bs s with ⟨out, s'⟩
  rw [hout] at hm
  generalize f.scan bs = e at hm
  cases hm
  case ends a rest => exact hg a rest s'
  case cut e       => simp [Extent.bind]
  case negative n  => simp [Extent.bind]

theorem Follows.bind_guards_none {x : Effect σ α} {g : α → Effect σ β} (hx : Follows x f)
    (hg : ∀ a, Guards (g a) .none) : Guards (x >>= g) f := by
  intro bs s
  rw [hx.bind_guards hg bs s]
  change (∀ n, (f.scan bs).bind .ends ≠ .negative n) ↔ _
  rw [Extent.bind_ends]

theorem Guards.zoom {x : Effect σ α} (hx : Guards x f) (get : τ → σ) (set : σ → τ → τ) : Guards (x.zoom get set) f :=
  fun bs t => hx bs (get t)

theorem Guards.map {x : Effect σ α} (hx : Guards x f) (g : α → β) : Guards (x >>= fun a => pure (g a)) f := by
  intro bs s
  rw [← hx bs s, exec_bind]
  rcases x.exec bs s with ⟨fault | ⟨a, rest⟩, s'⟩
  case error => rw [survives_error_iff, survives_error_iff]
  case ok    => exact iff_of_true (survives_ok _) (survives_ok _)

end Guards

end Protocol
