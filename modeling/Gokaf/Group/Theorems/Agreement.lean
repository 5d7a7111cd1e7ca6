import Gokaf.Group.Theorems.Joining
import Gokaf.Group.Theorems.Valid

open Go Protocol

namespace ConsumerGroup

variable {s s' : State} {a : Step} {as : List Step} {o os : List Output} {groupID memberID : Bytes} {delay now : Int}

-- The answer is of a generation that was completed after the call was made.
def State.Later (s : State) (call : JoinCall) (result : JoinResult) : Prop :=
  ∃ epoch : Nat, result.generationID = int32 epoch ∧ call.since < epoch ∧ epoch ≤ (s.rounds call.groupID).epoch

theorem State.Later.mono {call : JoinCall} {result : JoinResult} (h : s.Later call result)
    (hepoch : ∀ id, (s.rounds id).epoch ≤ (s'.rounds id).epoch) : s'.Later call result :=
  have ⟨epoch, heq, hlt, hle⟩ := h
  ⟨epoch, heq, hlt, hle.trans (hepoch _)⟩

-- The `Join` call that has the channel is `label channel`. Until it returns it waits, and what is in
-- its channel is for it.
structure Answered (s : State) (os : List Output) (label : Nat → JoinCall) : Prop where
  once     : Once s.coordinator.runtime.nextChannel s.joins s.readyJoin (joinAnswers os) label
  channel  : ∀ channel, (label channel).channel = channel
  empty    : ∀ channel, s.coordinator.runtime.nextChannel ≤ channel → (s.joins channel).buffer = none
  epoch    : ∀ groupID, s.coordinator.generationID groupID = int32 (s.rounds groupID).epoch
  since    : ∀ channel, (label channel).since ≤ (s.rounds (label channel).groupID).epoch
  buffer   : ∀ channel, ∀ result ∈ (s.joins channel).buffer, s.Later (label channel) result
  joined   : ∀ x ∈ joinAnswers os, s.Later x.fst x.snd
  member   : ∀ x m, s.coordinator.member? x = some m →
    m.awaitJoin < s.coordinator.runtime.nextChannel ∧ (label m.awaitJoin).caller = x
  metadata : ∀ x m, s.coordinator.member? x = some m → latestMetadata os x = some m.metadata

-- The part of it that is about channels and answers, while the results of a generation are being sent.
structure Answering (s s' : State) (label : Nat → JoinCall) (joins : Nat → Chan JoinResult JoinCall)
    (answers : List (JoinCall × JoinResult)) : Prop where
  once   : Once s.coordinator.runtime.nextChannel joins s.readyJoin answers label
  empty  : ∀ channel, s.coordinator.runtime.nextChannel ≤ channel → (joins channel).buffer = none
  buffer : ∀ channel, ∀ result ∈ (joins channel).buffer, s'.Later (label channel) result
  joined : ∀ x ∈ answers, s'.Later x.fst x.snd

theorem Answering.send {label : Nat → JoinCall} {joins : Nat → Chan JoinResult JoinCall}
    {answers : List (JoinCall × JoinResult)} {channel : Nat} {result : JoinResult}
    (h : Answering s s' label joins answers)
    (hlt : channel < s.coordinator.runtime.nextChannel) (hlater : s'.Later (label channel) result) :
    Answering s s' label (Function.update joins channel ((joins channel).send result).fst)
      (answers ++ ((joins channel).send result).snd.toList.map (·, result)) where
  once := h.once.send channel result
  empty ch hle := by
    rw [Function.update_of_ne (by omega)]
    exact h.empty ch hle
  buffer ch r hr := by
    by_cases hch : ch = channel
    case pos =>
      subst hch
      rw [Function.update_self] at hr
      cases (joins ch).send_cases result
      case inl hsend =>
        have ⟨_, _, _, _, hnone⟩ := hsend
        rw [hnone] at hr
        contradiction
      case inr hsend =>
        rw [hsend.right.right.right, Option.mem_def, Option.or_eq_some_iff] at hr
        cases hr
        case inl hold => exact h.buffer ch r hold
        case inr hnew =>
          cases hnew.right
          exact hlater
    case neg =>
      rw [Function.update_of_ne hch] at hr
      exact h.buffer ch r hr
  joined x hx := by
    cases List.mem_append.mp hx
    case inl hold => exact h.joined x hold
    case inr hnew =>
      have ⟨call, hcall, heq⟩ := List.mem_map.mp hnew
      subst heq
      cases (joins channel).send_cases result
      case inl hsend =>
        have ⟨k, hreceivers, hsnd, _, _⟩ := hsend
        rw [hsnd] at hcall
        cases List.mem_singleton.mp hcall
        have heq := h.once.waiting channel call (by simp [Chan.waiting, hreceivers])
        rwa [heq]
      case inr hsend =>
        rw [hsend.right.right.left] at hcall
        contradiction

namespace Answered

variable {label : Nat → JoinCall}

theorem unjoined (h : Answered s os label) (hu : s.Unjoined s' o) : Answered s' (os ++ o) label := by
  have hanswers : joinAnswers (os ++ o) = joinAnswers os := by
    rw [joinAnswers_append, joinAnswers, joinAnswers,
      List.filterMap_eq_nil_iff.mpr fun x hx => (hu.outputs x hx).left, List.append_nil]
  have hle : ∀ id, (s.rounds id).epoch ≤ (s'.rounds id).epoch := fun id => (hu.epoch id).ge
  refine ⟨?_, h.channel, ?_, fun id => ?_, fun channel => ?_, ?_, ?_, fun x m' hm' => ?_, fun x m' hm' => ?_⟩
  · rw [hu.nextChannel, hu.joins, State.readyJoin_congr hu.readyJoins, hanswers]
    exact h.once
  · rw [hu.nextChannel, hu.joins]
    exact h.empty
  · rw [hu.generation, hu.epoch]
    exact h.epoch id
  · rw [hu.epoch]
    exact h.since channel
  · rw [hu.joins]
    exact fun channel result hresult => (h.buffer channel result hresult).mono hle
  · rw [hanswers]
    exact fun x hx => (h.joined x hx).mono hle
  · obtain ⟨m, hm, hcard⟩ := hu.member x m' hm'
    rw [hu.nextChannel, show m'.awaitJoin = m.awaitJoin from congrArg (·.fst) hcard]
    exact h.member x m hm
  · obtain ⟨m, hm, hcard⟩ := hu.member x m' hm'
    rw [latestMetadata_append fun x hx => (hu.outputs x hx).right,
      show m'.metadata = m.metadata from congrArg (·.snd.snd) hcard]
    exact h.metadata x m hm

theorem calls {call : JoinCall} {metadata : Bytes} (h : Answered s os label) (hc : s.Calls s' call metadata) :
    Answered s' (os ++ [.joining call metadata]) (Function.update label s.coordinator.runtime.nextChannel call) := by
  have hanswers : joinAnswers (os ++ [.joining call metadata]) = joinAnswers os := by
    rw [joinAnswers_append]
    exact List.append_nil _
  have hle : ∀ id, (s.rounds id).epoch ≤ (s'.rounds id).epoch := fun id => by rw [hc.rounds]
  have hlabel : ∀ channel, channel ≠ s.coordinator.runtime.nextChannel →
      Function.update label s.coordinator.runtime.nextChannel call channel = label channel :=
    fun channel hne => Function.update_of_ne hne ..
  have hnext := hc.nextChannel
  refine ⟨?_, fun channel => ?_, fun channel hle => ?_, fun id => ?_, fun channel => ?_, fun channel result hr => ?_,
    ?_, fun x m hm => ?_, fun x m hm => ?_⟩
  · rw [hnext, hc.joins, hanswers]
    refine h.once.call (hc.channel ▸ State.readyJoin_append hc.readyJoins) rfl fun channel hne heq => hne ?_
    rw [← h.channel channel, heq, hc.channel]
  · by_cases hch : channel = s.coordinator.runtime.nextChannel
    case pos => rw [hch, Function.update_self, hc.channel]
    case neg => rw [hlabel channel hch, h.channel]
  · rw [hc.joins]
    exact h.empty channel (by omega)
  · rw [hc.rounds, hc.generation]
    exact h.epoch id
  · rw [hc.rounds]
    by_cases hch : channel = s.coordinator.runtime.nextChannel
    case pos => rw [hch, Function.update_self, hc.since]
    case neg =>
      rw [hlabel channel hch]
      exact h.since channel
  · rw [hc.joins] at hr
    have hch : channel ≠ s.coordinator.runtime.nextChannel := by
      rintro rfl
      rw [h.empty _ (Nat.le_refl _)] at hr
      contradiction
    rw [hlabel channel hch]
    exact (h.buffer channel result hr).mono hle
  · rw [hanswers]
    exact fun x hx => (h.joined x hx).mono hle
  · obtain ⟨rfl, hcard⟩ | ⟨_, hm⟩ := hc.member x m hm
    · rw [show m.awaitJoin = s.coordinator.runtime.nextChannel from congrArg (·.fst) hcard]
      exact ⟨by omega, by rw [Function.update_self]⟩
    · obtain ⟨hlt, heq⟩ := h.member x m hm
      exact ⟨by omega, by rw [hlabel _ (by omega), heq]⟩
  · rw [latestMetadata_append_joining]
    obtain ⟨rfl, hcard⟩ | ⟨hne, hm⟩ := hc.member x m hm
    · rw [Function.update_self, show m.metadata = metadata from congrArg (·.snd.snd) hcard]
    · rw [Function.update_of_ne hne]
      exact h.metadata x m hm

theorem receives {call : JoinCall} (h : Answered s os label) (hr : s.Receives s' call) :
    Answered s' (os ++ ((s.joins call.channel).receive call).snd.toList.map (.joined call)) label := by
  have hcall := h.once.waiting _ _ hr.waiting
  have hanswers : joinAnswers (os ++ ((s.joins call.channel).receive call).snd.toList.map (.joined call)) =
      joinAnswers os ++ ((s.joins call.channel).receive call).snd.toList.map (call, ·) := by
    rw [joinAnswers_append]
    cases ((s.joins call.channel).receive call).snd <;> rfl
  have hbuffer : ∀ channel, (s'.joins channel).buffer = none ∨ s'.joins channel = s.joins channel := by
    intro channel
    by_cases hch : channel = call.channel
    case pos => exact .inl (hch ▸ hr.buffer_eq_none)
    case neg => exact .inr (by rw [hr.joins, Function.update_of_ne hch])
  have hle : ∀ id, (s.rounds id).epoch ≤ (s'.rounds id).epoch := fun id => by rw [hr.rounds]
  refine ⟨?_, h.channel, fun channel hle => ?_, fun id => ?_, ?_, fun channel result hresult => ?_, fun x hx => ?_,
    ?_, fun x m hm => ?_⟩
  · rw [hanswers, hr.nextChannel, hr.joins]
    exact h.once.receive hr.readyJoin_self fun channel hne => hr.readyJoin_of_ne hne
  · rw [hr.nextChannel] at hle
    obtain hnone | heq := hbuffer channel
    · exact hnone
    · rw [heq]
      exact h.empty channel hle
  · rw [hr.rounds, hr.coordinator]
    exact h.epoch id
  · rw [hr.rounds]
    exact h.since
  · obtain hnone | heq := hbuffer channel
    · rw [hnone] at hresult
      contradiction
    · exact (h.buffer channel result (heq ▸ hresult)).mono hle
  · rw [hanswers] at hx
    cases List.mem_append.mp hx
    case inl hold => exact (h.joined x hold).mono hle
    case inr hnew =>
      obtain ⟨result, hresult, rfl⟩ := List.mem_map.mp hnew
      cases (s.joins call.channel).receive_cases call
      case inl hreceive =>
        obtain ⟨result', hbuffer, hsnd, _⟩ := hreceive
        rw [hsnd] at hresult
        cases List.mem_singleton.mp hresult
        have hlater := (h.buffer _ result hbuffer).mono hle
        rwa [← hcall] at hlater
      case inr hreceive =>
        rw [hreceive.right.left] at hresult
        contradiction
  · rw [hr.nextChannel, hr.member?_eq]
    exact h.member
  · rw [latestMetadata_append (by simp [Output.joining?])]
    exact h.metadata x m (hr.member?_eq ▸ hm)

-- What a member gets in the new generation goes to the call that it made before.
theorem completes {g g' : Group} {leaderMembers : List JoinMember} {delivered : List (JoinCall × JoinResult)}
    (h : Answered s os label)
    (hcompletes : s.coordinator.Completes groupID g g' leaderMembers s'.coordinator delivered)
    (hready : s'.readyJoins = s.readyJoins)
    (hrounds : s'.rounds = Function.update s.rounds groupID ⟨(s.rounds groupID).epoch + 1, none⟩) :
    Answered s' (os ++ delivered.map fun (call, result) => .joined call result) label := by
  have hlike := Coordinator.Like.completes hcompletes
  have hround : s'.rounds groupID = ⟨(s.rounds groupID).epoch + 1, none⟩ := by rw [hrounds, Function.update_self]
  have hround' : ∀ id, id ≠ groupID → s'.rounds id = s.rounds id := by
    intro id hid
    rw [hrounds, Function.update_of_ne hid]
  have hle : ∀ id, (s.rounds id).epoch ≤ (s'.rounds id).epoch := by
    intro id
    by_cases hid : id = groupID
    case pos =>
      rw [hid, hround]
      exact Nat.le_succ _
    case neg => rw [hround' id hid]
  have hgen : g'.generationID = int32 ((s.rounds groupID).epoch + 1 : Nat) := by
    rw [hcompletes.generationID, ← Coordinator.generationID_eq hcompletes.lookup, h.epoch, int32, int32, int32,
      Int.add_comm, wrap_add_wrap, Int.add_comm]
    rfl
  have hlater : ∀ id m, g'.members.lookup id = some m → m.awaitJoin < s.coordinator.runtime.nextChannel ∧
      s'.Later (label m.awaitJoin) (g'.joinResult leaderMembers m) := by
    intro id m hm
    obtain ⟨m₀, hm₀, hcard⟩ := hlike.member?_eq_some
      ((Coordinator.member?_insert (x := (groupID, id)) hcompletes.groups rfl).trans hm)
    rw [show m.awaitJoin = m₀.awaitJoin from congrArg (·.fst) hcard]
    obtain ⟨hlt, hcaller⟩ := h.member _ m₀ hm₀
    have hgroup : (label m₀.awaitJoin).groupID = groupID := congrArg (·.fst) hcaller
    have hsince := h.since m₀.awaitJoin
    rw [hgroup] at hsince
    refine ⟨hlt, _, hgen, by omega, ?_⟩
    rw [hgroup, hround]
  obtain ⟨honce, hempty, hbuffer, hjoined⟩ := hcompletes.fold (P := Answering s s' label) (joinAnswers os)
    ⟨h.once, h.empty, fun channel r hr => (h.buffer channel r hr).mono hle, fun x hx => (h.joined x hx).mono hle⟩
    fun joins given hP id m hm => hP.send (hlater id m hm).left (hlater id m hm).right
  have hnext := hcompletes.runtime.nextChannel
  have hanswers : joinAnswers (os ++ delivered.map fun (call, result) => .joined call result) =
      joinAnswers os ++ delivered := by
    rw [joinAnswers_append, joinAnswers_map]
  refine ⟨?_, h.channel, ?_, fun id => ?_, fun channel => (h.since channel).trans (hle _), hbuffer, ?_,
    fun x m hm => ?_, fun x m hm => ?_⟩
  · rw [hnext, State.readyJoin_congr hready, hanswers]
    exact honce
  · rw [hnext]
    exact hempty
  · by_cases hid : id = groupID
    case pos => rw [hid, Coordinator.generationID_eq (Coordinator.lookup_insert_self hcompletes.groups), hround, hgen]
    case neg =>
      rw [Coordinator.generationID_of_ne hcompletes.groups hid, hround' id hid]
      exact h.epoch id
  · rw [hanswers]
    exact hjoined
  · obtain ⟨m₀, hm₀, hcard⟩ := hlike.member?_eq_some hm
    rw [hnext, show m.awaitJoin = m₀.awaitJoin from congrArg (·.fst) hcard]
    exact h.member x m₀ hm₀
  · obtain ⟨m₀, hm₀, hcard⟩ := hlike.member?_eq_some hm
    have hnone : ∀ y ∈ delivered.map (fun (call, result) => Output.joined call result), y.joining? = none := by
      rintro y hy
      obtain ⟨_, _, rfl⟩ := List.mem_map.mp hy
      rfl
    rw [latestMetadata_append hnone, show m.metadata = m₀.metadata from congrArg (·.snd.snd) hcard]
    exact h.metadata x m₀ hm₀

theorem step (h : Answered s os label) (hs : machine.step s a = some (s', o)) :
    ∃ label, Answered s' (os ++ o) label := by
  cases joinMoves hs
  case unjoined hu => exact ⟨label, h.unjoined hu⟩
  case calls hc ho =>
    subst ho
    exact ⟨_, h.calls hc⟩
  case completes hcompletes hready hrounds ho =>
    subst ho
    exact ⟨label, h.completes hcompletes hready hrounds⟩
  case receives hr ho =>
    subst ho
    exact ⟨label, h.receives hr⟩

theorem init (delay now : Int) : Answered (.init delay now) [] fun channel => ⟨channel, [], [], 0⟩ where
  once.injective _ _ heq    := congrArg (·.channel) heq
  once.waiting _ _ hk       := by simp [State.joins, State.readyJoin, State.init, Coordinator.new, Runtime.new,
    Chan.waiting, Chan.make] at hk
  once.answered _ hx        := by simp [joinAnswers] at hx
  once.once _               := by simp [State.joins, State.readyJoin, State.init, Coordinator.new, Runtime.new,
    Chan.waiting, Chan.make, joinAnswers, answersTo]
  channel _                 := rfl
  empty _ _                 := rfl
  epoch _                   := by simp [State.init, Coordinator.new, Coordinator.generationID,
    Coordinator.generationID?, int32, wrap]
  since _                   := Nat.le_refl _
  buffer _ _ hr             := by simp [State.joins, State.init, Coordinator.new, Runtime.new, Chan.make] at hr
  joined _ hx               := by simp [joinAnswers] at hx
  member _ _ hm             := by simp [State.init, Coordinator.new, Coordinator.member?] at hm
  metadata _ _ hm           := by simp [State.init, Coordinator.new, Coordinator.member?] at hm

end Answered

-- The answer is in the channel, and the call is about to receive it.
def State.Due (s : State) (call : JoinCall) (result : JoinResult) : Prop :=
  call ∈ s.readyJoins ∧ (s.joins call.channel).buffer = some result

namespace State.Due

variable {label : Nat → JoinCall} {call : JoinCall} {result : JoinResult}

theorem step (h : s.Due call result) (ha : Answered s os label) (hs : machine.step s a = some (s', o)) :
    s'.Due call result ∨ (call, result) ∈ joinAnswers o := by
  obtain ⟨hmem, hbuffer⟩ := h
  cases joinMoves hs
  case unjoined hu => exact .inl ⟨hu.readyJoins ▸ hmem, hu.joins ▸ hbuffer⟩
  case calls hc _ =>
    refine .inl ⟨?_, hc.joins ▸ hbuffer⟩
    rw [hc.readyJoins]
    exact List.mem_append_left _ hmem
  case completes hcompletes hready _ _ =>
    refine .inl ⟨hready ▸ hmem, ?_⟩
    refine (hcompletes.induction (P := fun joins => (joins call.channel).buffer = some result) (Q := fun _ _ => True)
      hbuffer fun joins hP id m _ => ⟨?_, fun _ _ => trivial⟩).left
    rw [Function.update_apply]
    split
    case isTrue hch => exact Chan.buffer_send_of_some (hch ▸ hP)
    case isFalse    => exact hP
  case receives call' hr ho =>
    by_cases hcall : call' = call
    case pos =>
      subst hcall
      cases (s.joins call'.channel).receive_cases call'
      case inl hreceive =>
        obtain ⟨result', hbuffer', hsnd, _⟩ := hreceive
        cases hbuffer.symm.trans hbuffer'
        exact .inr (by simp [ho, hsnd, joinAnswers, Output.joined?])
      case inr hreceive => cases hbuffer.symm.trans hreceive.left
    case neg =>
      have hne : call.channel ≠ call'.channel := by
        intro heq
        have hwaiting : call ∈ (s.joins call.channel).waiting (s.readyJoin call.channel) :=
          List.mem_append_right _ (List.mem_filter.mpr ⟨hmem, by simp⟩)
        have hlabel  := ha.once.waiting _ _ hwaiting
        have hlabel' := ha.once.waiting _ _ hr.waiting
        exact hcall (by rw [hlabel, hlabel', heq])
      refine .inl ⟨?_, ?_⟩
      · exact (List.mem_cons.mp (hr.readyJoins.mem_iff.mp hmem)).resolve_left (Ne.symm hcall)
      · rwa [hr.joins, Function.update_of_ne hne]

end State.Due

-- A call with an answer in its channel returns it in the end, and nothing else.
theorem inductive_due (call : JoinCall) (result : JoinResult) : machine.Inductive (fun _ _ => True) fun s os =>
    ∃ label, Answered s os label ∧ (s.Due call result ∨ (call, result) ∈ joinAnswers os) where
  step h _ hs := by
    have ⟨label, ha, hdue⟩ := h
    have ⟨label', ha'⟩ := ha.step hs
    refine ⟨label', ha', ?_⟩
    rw [joinAnswers_append, List.mem_append]
    cases hdue
    case inl hdue => exact (hdue.step ha hs).imp_right .inr
    case inr hmem => exact .inr (.inl hmem)

theorem Answered.answersTo_cases {label : Nat → JoinCall} {call : JoinCall} {result : JoinResult}
    (h : Answered s os label) (hdue : s.Due call result ∨ (call, result) ∈ joinAnswers os) :
    answersTo call (joinAnswers os) = [result] ∨ answersTo call (joinAnswers os) = [] ∧ s.Due call result := by
  cases hdue
  case inl hdue =>
    have hready : call ∈ (s.joins call.channel).waiting (s.readyJoin call.channel) :=
      List.mem_append_right _ (List.mem_filter.mpr ⟨hdue.left, by simp⟩)
    exact .inr ⟨(h.once.answersTo_eq_nil hready).right.left, hdue⟩
  case inr hmem =>
    have ⟨channel, hlabel⟩ := h.once.answered _ hmem
    dsimp only at hlabel
    rw [hlabel] at hmem ⊢
    exact .inl (h.once.answersTo_eq hmem)

theorem Answered.answersTo_run {label : Nat → JoinCall} {call : JoinCall} {result : JoinResult}
    (h : Answered s os label) (hdue : s.Due call result ∨ (call, result) ∈ joinAnswers os)
    (hr : machine.run s as = some (s', o)) :
    answersTo call (joinAnswers (os ++ o)) = [result] ∨
      answersTo call (joinAnswers (os ++ o)) = [] ∧ s'.Due call result :=
  have ⟨_, h', hdue'⟩ := (inductive_due call result).run ⟨label, h, hdue⟩ (Machine.along_true _ _) hr
  h'.answersTo_cases hdue'

-- What a member is answered.
def Group.answerFor (g : Group) (leaderMembers : List JoinMember) (memberID : Bytes) : JoinResult where
  generationID := g.generationID
  protocol     := g.protocol
  leaderID     := g.leaderID
  memberID     := memberID
  members      := if memberID = g.leaderID then leaderMembers else []
  errorCode    := .none

-- The step answers the waiting calls of the members of the group `g'`, whatever happens afterwards.
structure Agreement (s : State) (os : List Output) (s' : State) (o : List Output) (groupID : Bytes) (g' : Group)
    (leaderMembers : List JoinMember) : Prop where
  group    : s'.coordinator.groups.lookup groupID = some g'
  leader   : g'.leaderID ∈ g'.members
  nodup    : g'.joinOrder.Nodup
  members  : ∀ id, id ∈ g'.joinOrder ↔ id ∈ g'.members
  listed   : leaderMembers.map (·.id) = g'.joinOrder
  metadata : ∀ x ∈ leaderMembers, latestMetadata os (groupID, x.id) = some x.metadata
  answered : ∀ x ∈ joinAnswers o, x.fst.groupID = groupID ∧ x.snd = g'.answerFor leaderMembers x.fst.memberID
  waiting  : ∀ id m call, g'.members.lookup id = some m → (s.joins m.awaitJoin).buffer = none →
    call ∈ (s.joins m.awaitJoin).waiting (s.readyJoin m.awaitJoin) →
    call.groupID = groupID ∧ call.memberID = id ∧
    (call ∈ (s.joins m.awaitJoin).receivers → (call, g'.answerFor leaderMembers id) ∈ joinAnswers o) ∧
    ∀ bs s'' os', machine.run s' bs = some (s'', os') →
      answersTo call (joinAnswers (os ++ o ++ os')) = [g'.answerFor leaderMembers id] ∨
      answersTo call (joinAnswers (os ++ o ++ os')) = [] ∧ s''.Due call (g'.answerFor leaderMembers id)

namespace Group.Lists

variable {ms : Map Bytes Member} {ids : List Bytes} {leaderMembers : List JoinMember}

theorem map_id (h : Group.Lists ms ids leaderMembers) (hid : ∀ id m, ms.lookup id = some m → m.id = id) :
    leaderMembers.map (·.id) = ids := by
  unfold Group.Lists at h
  induction h
  case nil => rfl
  case cons hjm _ hi =>
    have ⟨m, hm, heq⟩ := hjm
    rw [List.map_cons, hi, heq, hid _ m hm]

theorem exists_lookup {x : JoinMember} (h : Group.Lists ms ids leaderMembers) (hx : x ∈ leaderMembers) :
    ∃ id m, ms.lookup id = some m ∧ x = ⟨m.id, m.metadata⟩ := by
  unfold Group.Lists at h
  induction h
  case nil => contradiction
  case cons hjm _ hi =>
    cases List.mem_cons.mp hx
    case inl heq =>
      have ⟨m, hm, hjm⟩ := hjm
      exact ⟨_, m, hm, heq.trans hjm⟩
    case inr hmem => exact hi hmem

end Group.Lists

namespace Answered

section Completes

variable {label : Nat → JoinCall} {g g' : Group} {leaderMembers : List JoinMember}
  {delivered : List (JoinCall × JoinResult)} {id : Bytes} {m : Member}

-- The channel of a member belongs to its latest call, also after the generation is completed.
theorem owned (h : Answered s os label) (hvalid : s.coordinator.Valid)
    (hcompletes : s.coordinator.Completes groupID g g' leaderMembers s'.coordinator delivered)
    (hm : g'.members.lookup id = some m) : m.id = id ∧ (label m.awaitJoin).caller = (groupID, id) := by
  obtain ⟨m₀, hm₀, hsame⟩ := hcompletes.members.lookup_right hm
  have hcaller := (h.member (groupID, id) m₀ ((Coordinator.member?_eq hcompletes.lookup).trans hm₀)).right
  rw [hsame]
  exact ⟨(hvalid groupID g hcompletes.lookup).member_id id m₀ hm₀, hcaller⟩

-- One result is sent to each member.
theorem sent (h : Answered s os label) (hvalid : s.coordinator.Valid)
    (hcompletes : s.coordinator.Completes groupID g g' leaderMembers s'.coordinator delivered)
    (hm : g'.members.lookup id = some m) :
    let sent := (s.joins m.awaitJoin).send (g'.joinResult leaderMembers m)
    s'.joins m.awaitJoin = sent.fst ∧ ∀ call ∈ sent.snd, (call, g'.joinResult leaderMembers m) ∈ delivered := by
  have hg := hvalid groupID g hcompletes.lookup
  refine hcompletes.sent hg.nodup (fun id id' m m' hm hm' hch => ?_) ?_ hm
  · have hcaller := (h.owned hvalid hcompletes hm).right
    rw [hch, (h.owned hvalid hcompletes hm').right] at hcaller
    exact (congrArg (·.snd) hcaller).symm
  · exact (hg.mem_joinOrder id).mpr (hcompletes.members.mem_iff.mp (Map.mem_of_lookup hm))

-- Who is handed an answer was parked on the channel of its member.
theorem delivered_cases (h : Answered s os label)
    (hcompletes : s.coordinator.Completes groupID g g' leaderMembers s'.coordinator delivered) :
    ∀ x ∈ delivered, ∃ id m, g'.members.lookup id = some m ∧ x.fst = label m.awaitJoin ∧
      x.fst ∈ (s.joins m.awaitJoin).receivers ∧ x.snd = g'.joinResult leaderMembers m := by
  refine (hcompletes.induction (P := fun joins => ∀ channel, (joins channel).receivers ⊆ (s.joins channel).receivers)
    (Q := fun call result => ∃ id m, g'.members.lookup id = some m ∧ call = label m.awaitJoin ∧
      call ∈ (s.joins m.awaitJoin).receivers ∧ result = g'.joinResult leaderMembers m)
    (fun _ => List.Subset.refl _) fun joins hP id m hm => ⟨fun channel => ?_, fun k hk => ?_⟩).right
  · rw [Function.update_apply]
    split
    case isTrue heq =>
      rw [heq]
      exact List.Subset.trans (Chan.receivers_send_subset _ _) (hP m.awaitJoin)
    case isFalse => exact hP channel
  · have hparked := hP _ (Chan.mem_receivers_of_send hk)
    exact ⟨id, m, hm, h.once.waiting _ k (List.mem_append_left _ hparked), hparked, rfl⟩

-- A parked call is handed its answer. The answer to another one that waits is put into its channel.
theorem due_of_completes {call : JoinCall} (h : Answered s os label) (hvalid : s.coordinator.Valid)
    (hcompletes : s.coordinator.Completes groupID g g' leaderMembers s'.coordinator delivered)
    (hready : s'.readyJoins = s.readyJoins) (hm : g'.members.lookup id = some m)
    (hbuffer : (s.joins m.awaitJoin).buffer = none)
    (hcall : call ∈ (s.joins m.awaitJoin).waiting (s.readyJoin m.awaitJoin)) :
    (call ∈ (s.joins m.awaitJoin).receivers ∧ (call, g'.joinResult leaderMembers m) ∈ delivered) ∨
      call ∉ (s.joins m.awaitJoin).receivers ∧ s'.Due call (g'.joinResult leaderMembers m) := by
  obtain ⟨hlabel, _, halone⟩ := h.once.answersTo_eq_nil hcall
  obtain ⟨hchannel, hdelivered⟩ := h.sent hvalid hcompletes hm
  cases (s.joins m.awaitJoin).send_cases (g'.joinResult leaderMembers m)
  case inl hsend =>
    obtain ⟨k, hreceivers, hsnd, _⟩ := hsend
    have hk : k = call := by
      have hmem : k ∈ (s.joins m.awaitJoin).waiting (s.readyJoin m.awaitJoin) := by simp [Chan.waiting, hreceivers]
      rw [halone] at hmem
      exact List.mem_singleton.mp hmem
    subst hk
    exact .inl ⟨by simp [hreceivers], hdelivered k hsnd⟩
  case inr hsend =>
    obtain ⟨hreceivers, _, _, hbuffer'⟩ := hsend
    refine .inr ⟨by simp [hreceivers], ?_, ?_⟩
    · rw [Chan.waiting, hreceivers, List.nil_append] at hcall
      exact hready ▸ (List.mem_filter.mp hcall).left
    · rw [show call.channel = m.awaitJoin by rw [hlabel, h.channel], hchannel, hbuffer', hbuffer]
      rfl

end Completes

theorem agreement {label : Nat → JoinCall} {i : Nat} (h : Answered s os label) (hvalid : s.Valid)
    (hi : s.completeJoins[i]? = some groupID) (hs : machine.step s (.completeJoin i) = some (s', o))
    (hne : s'.coordinator.generationID groupID ≠ s.coordinator.generationID groupID) :
    ∃ g' leaderMembers, Agreement s os s' o groupID g' leaderMembers := by
  cases moves hs
  case quiet hsame _ => exact absurd (Coordinator.generationID_of_touched hsame.groups groupID) hne
  case evicts ha _ _ _ _ _ => simp [State.evicted?] at ha
  case completes g g' leaderMembers delivered hi' hcompletes hready _ hrounds =>
    cases hi.symm.trans hi'
    have hg := hvalid.coordinator groupID g hcompletes.lookup
    have hanswer : ∀ id m, g'.members.lookup id = some m →
        g'.joinResult leaderMembers m = g'.answerFor leaderMembers id := by
      intro id m hm
      rw [Group.joinResult, Group.answerFor, (h.owned hvalid.coordinator hcompletes hm).left]
    refine ⟨g', leaderMembers, Coordinator.lookup_insert_self hcompletes.groups, ?_, ?_, fun id => ?_, ?_,
      fun x hx => ?_, ?_, fun id m call hm hbuffer hcall => ?_⟩
    · exact hcompletes.members.mem_iff.mpr hcompletes.leader_mem
    · exact hcompletes.joinOrder ▸ hg.nodup
    · rw [hcompletes.joinOrder, hg.mem_joinOrder, hcompletes.members.mem_iff]
    · rw [hcompletes.joinOrder]
      exact hcompletes.lists.map_id hg.member_id
    · obtain ⟨id, m, hm, rfl⟩ := hcompletes.lists.exists_lookup hx
      rw [hg.member_id id m hm]
      exact h.metadata _ m ((Coordinator.member?_eq hcompletes.lookup).trans hm)
    · rw [joinAnswers_map]
      intro x hx
      obtain ⟨id, m, hm, hlabel, _, hsnd⟩ := h.delivered_cases hcompletes x hx
      have hcaller := (h.owned hvalid.coordinator hcompletes hm).right
      rw [← hlabel] at hcaller
      rw [hsnd, hanswer id m hm]
      exact ⟨congrArg (·.fst) hcaller, by rw [show x.fst.memberID = id from congrArg (·.snd) hcaller]⟩
    · have hcaller := (h.owned hvalid.coordinator hcompletes hm).right
      rw [← h.once.waiting _ _ hcall] at hcaller
      have hdue := h.due_of_completes hvalid.coordinator hcompletes hready hm hbuffer hcall
      rw [hanswer id m hm] at hdue
      rw [joinAnswers_map]
      refine ⟨congrArg (·.fst) hcaller, congrArg (·.snd) hcaller, fun hreceiver => ?_, fun bs s'' os' hrun => ?_⟩
      · exact (hdue.resolve_right fun hnot => hnot.left hreceiver).right
      · refine (h.completes hcompletes hready hrounds).answersTo_run ?_ hrun
        rw [joinAnswers_append, joinAnswers_map, List.mem_append]
        exact hdue.symm.imp And.right fun hparked => .inr hparked.right

end Answered

-- The generations are counted by `rounds`. No answer is of a generation from before the call, and every
-- step that completes a generation agrees with everyone.
theorem join_agreement (hr : machine.run (.init delay now) as = some (s, os)) :
    (∀ groupID, s.coordinator.generationID groupID = int32 (s.rounds groupID).epoch) ∧
    (∀ x ∈ joinAnswers os, (s.rounds x.fst.groupID).epoch < 2 ^ 31 → x.fst.since < x.snd.generationID) ∧
    ∀ i groupID s' o, s.completeJoins[i]? = some groupID → machine.step s (.completeJoin i) = some (s', o) →
      s'.coordinator.generationID groupID ≠ s.coordinator.generationID groupID →
      ∃ g' leaderMembers, Agreement s os s' o groupID g' leaderMembers := by
  have ⟨hvalid, _⟩ := State.inductive_valid.run_nil ⟨.init delay now, by simp⟩ (Machine.along_true _ _) hr
  have hinductive : machine.Inductive (fun _ _ => True) fun s os => ∃ label, Answered s os label :=
    ⟨fun ⟨_, h⟩ _ hs => h.step hs⟩
  have ⟨label, h⟩ := hinductive.run_nil ⟨_, .init delay now⟩ (Machine.along_true _ _) hr
  refine ⟨h.epoch, fun x hx hlt => ?_, fun i groupID s' o hi hs hne => h.agreement hvalid hi hs hne⟩
  have ⟨epoch, hgen, hsince, hle⟩ := h.joined x hx
  rw [hgen, int32, wrap_of_nonneg (by decide) (by omega) (by omega)]
  omega

-- Two members join with metadata, and one of them is parked when the generation is completed.
theorem join_agreement_pair :
    let join (memberID metadata : Bytes) : Step := .join ⟨sampleGroup, [], 60000, memberID, [⟨[114], metadata⟩]⟩
    let as : List Step := [join [97] [1], join [98] [2], .receiveJoin 0, .tick 3000000000, .fireJoinTimer 0]
    ∃ s os s' o, machine.run (.init 3000000000 0) as = some (s, os) ∧
      machine.step s (.completeJoin 0) = some (s', o) ∧
      joinAnswers o = [(⟨0, sampleGroup, [97], 0⟩, ⟨1, [114], [97], [97], [⟨[97], [1]⟩, ⟨[98], [2]⟩], .none⟩)] ∧
      ∃ g' leaderMembers, Agreement s os s' o sampleGroup g' leaderMembers := by
  intro join as
  have hrun : (machine.run (.init 3000000000 0) as).bind (fun r => (machine.step r.fst (.completeJoin 0)).map fun r' =>
      (r.fst.completeJoins[0]?, joinAnswers r'.snd, r.fst.coordinator.generationID sampleGroup,
        r'.fst.coordinator.generationID sampleGroup)) =
      some (some sampleGroup, [(⟨0, sampleGroup, [97], 0⟩, ⟨1, [114], [97], [97], [⟨[97], [1]⟩, ⟨[98], [2]⟩], .none⟩)],
        0, 1) := by decide +kernel
  have ⟨⟨s, os⟩, hr, hstep⟩ := Option.bind_eq_some_iff.mp hrun
  have ⟨⟨s', o⟩, hs, heq⟩ := Option.map_eq_some_iff.mp hstep
  simp only [Prod.mk.injEq] at heq
  have ⟨hi, hanswers, hgen, hgen'⟩ := heq
  have ⟨_, _, hagreement⟩ := join_agreement hr
  exact ⟨s, os, s', o, hr, hs, hanswers, hagreement 0 sampleGroup s' o hi hs (by rw [hgen, hgen']; decide)⟩

end ConsumerGroup
