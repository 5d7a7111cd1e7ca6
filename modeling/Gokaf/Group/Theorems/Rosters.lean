import Gokaf.Group.Theorems.Agreement

open Go Protocol

namespace ConsumerGroup

variable {s s' : State} {a : Step} {as : List Step} {o os : List Output} {groupID memberID : Bytes} {delay now : Int}

-- What a generation begins with.
structure Roster where
  leaderID : Bytes
  protocol : Bytes
  members  : List JoinMember

def Roster.answer (r : Roster) (epoch : Nat) (memberID : Bytes) : JoinResult where
  generationID := int32 epoch
  protocol     := r.protocol
  leaderID     := r.leaderID
  memberID     := memberID
  members      := if memberID = r.leaderID then r.members else []
  errorCode    := .none

-- The rosters of all groups, by the number of the generation.
abbrev Rosters := Bytes → Nat → Roster

namespace Rosters

-- A call is answered by the first generation that is completed after it.
def answerTo (rosters : Rosters) (call : JoinCall) : JoinResult :=
  (rosters call.groupID (call.since + 1)).answer (call.since + 1) call.memberID

-- The call has the answer of its roster, which lists its member.
def Tells (rosters : Rosters) (call : JoinCall) (result : JoinResult) : Prop :=
  result = rosters.answerTo call ∧ call.memberID ∈ (rosters call.groupID (call.since + 1)).members.map (·.id)

def add (rosters : Rosters) (groupID : Bytes) (epoch : Nat) (r : Roster) : Rosters :=
  Function.update rosters groupID (Function.update (rosters groupID) epoch r)

variable {rosters : Rosters} {epoch epoch' : Nat} {r : Roster} {id : Bytes}

theorem add_self : rosters.add groupID epoch r groupID epoch = r := by
  rw [add, Function.update_self, Function.update_self]

theorem add_of_ne (h : id = groupID → epoch' ≠ epoch) : rosters.add groupID epoch r id epoch' = rosters id epoch' := by
  by_cases hid : id = groupID
  case pos =>
    subst hid
    rw [add, Function.update_self, Function.update_of_ne (h rfl)]
  case neg => rw [add, Function.update_of_ne hid]

end Rosters

-- All answers are those of the rosters.
structure Rostered (s : State) (os : List Output) (label : Nat → JoinCall) (rosters : Rosters) : Prop where
  joined   : ∀ x ∈ joinAnswers os, rosters.Tells x.fst x.snd
  buffer   : ∀ channel, label channel ∈ (s.joins channel).waiting (s.readyJoin channel) →
    ∀ result ∈ (s.joins channel).buffer, rosters.Tells (label channel) result
  -- A member whose call waits for an answer joined in the current generation.
  pending  : ∀ x m, s.coordinator.member? x = some m → (s.joins m.awaitJoin).buffer = none →
    label m.awaitJoin ∈ (s.joins m.awaitJoin).waiting (s.readyJoin m.awaitJoin) →
    (label m.awaitJoin).since = (s.rounds x.fst).epoch
  latest   : ∀ channel < s.coordinator.runtime.nextChannel, ∀ m,
    s.coordinator.member? (label channel).caller = some m → (label channel).since ≤ (label m.awaitJoin).since
  await    : ∀ x m, s.coordinator.member? x = some m → m.awaitSync = m.awaitJoin
  named    : ∀ x m, s.coordinator.member? x = some m → x.snd ≠ []
  leader   : ∀ groupID, s.coordinator.leaderID groupID = [] ∨
    s.coordinator.leaderID groupID = (rosters groupID (s.rounds groupID).epoch).leaderID
  listed   : ∀ x m, s.coordinator.member? x = some m → (label m.awaitJoin).since < (s.rounds x.fst).epoch →
    x.snd ∈ (rosters x.fst (s.rounds x.fst).epoch).members.map (·.id)
  nodup    : ∀ groupID, ∀ epoch ≤ (s.rounds groupID).epoch, ((rosters groupID epoch).members.map (·.id)).Nodup
  metadata : ∀ groupID, ∀ epoch ≤ (s.rounds groupID).epoch, ∀ x ∈ (rosters groupID epoch).members,
    ∃ call, .joining call x.metadata ∈ os ∧ call.caller = (groupID, x.id)

namespace Rostered

variable {label : Nat → JoinCall} {rosters : Rosters}

theorem init (delay now : Int) :
    Rostered (.init delay now) [] (fun channel => ⟨channel, [], [], 0⟩) fun _ _ => ⟨[], [], []⟩ where
  joined _ hx         := by simp [joinAnswers] at hx
  buffer _ _ _ hr     := by simp [State.joins, State.init, Coordinator.new, Runtime.new, Chan.make] at hr
  pending _ _ hm      := by simp [State.init, Coordinator.new, Coordinator.member?] at hm
  latest _ _ _ hm     := by simp [State.init, Coordinator.new, Coordinator.member?] at hm
  await _ _ hm        := by simp [State.init, Coordinator.new, Coordinator.member?] at hm
  named _ _ hm        := by simp [State.init, Coordinator.new, Coordinator.member?] at hm
  leader _            := .inl rfl
  listed _ _ hm       := by simp [State.init, Coordinator.new, Coordinator.member?] at hm
  nodup _ _ _         := .nil
  metadata _ _ _ _ hx := by simp at hx

theorem unjoined (h : Rostered s os label rosters) (hu : s.Unjoined s' o) : Rostered s' (os ++ o) label rosters := by
  have hready : s'.readyJoin = s.readyJoin := State.readyJoin_congr hu.readyJoins
  have hmember : ∀ x m', s'.coordinator.member? x = some m' → ∃ m, s.coordinator.member? x = some m ∧
      m'.awaitJoin = m.awaitJoin ∧ m'.awaitSync = m.awaitSync := by
    intro x m' hm'
    obtain ⟨m, hm, hcard⟩ := hu.member x m' hm'
    exact ⟨m, hm, congrArg (·.fst) hcard, congrArg (·.snd.fst) hcard⟩
  refine ⟨fun x hx => ?_, ?_, fun x m' hm' => ?_, fun channel hlt m' hm' => ?_, fun x m' hm' => ?_, fun x m' hm' => ?_,
    fun id => ?_, fun x m' hm' => ?_, fun id => ?_, fun id epoch hle x hx => ?_⟩
  · rw [joinAnswers_append, List.mem_append] at hx
    refine h.joined x (hx.resolve_right fun hnew => ?_)
    obtain ⟨y, hy, hsome⟩ := List.mem_filterMap.mp hnew
    cases (hu.outputs y hy).left.symm.trans hsome
  · rw [hu.joins, hready]
    exact h.buffer
  · obtain ⟨m, hm, hjoin, _⟩ := hmember x m' hm'
    rw [hjoin, hu.joins, hready, hu.epoch]
    exact h.pending x m hm
  · obtain ⟨m, hm, hjoin, _⟩ := hmember _ m' hm'
    rw [hjoin]
    exact h.latest channel (hu.nextChannel ▸ hlt) m hm
  · obtain ⟨m, hm, hjoin, hsync⟩ := hmember x m' hm'
    rw [hjoin, hsync]
    exact h.await x m hm
  · obtain ⟨m, hm, _⟩ := hmember x m' hm'
    exact h.named x m hm
  · rw [hu.epoch]
    obtain hnil | heq := hu.leader id
    · exact .inl hnil
    · rw [heq]
      exact h.leader id
  · obtain ⟨m, hm, hjoin, _⟩ := hmember x m' hm'
    rw [hjoin, hu.epoch]
    exact h.listed x m hm
  · rw [hu.epoch]
    exact h.nodup id
  · rw [hu.epoch] at hle
    obtain ⟨call, hcall, hcaller⟩ := h.metadata id epoch hle x hx
    exact ⟨call, List.mem_append_left _ hcall, hcaller⟩

theorem calls {call : JoinCall} {metadata : Bytes} (ha : Answered s os label) (h : Rostered s os label rosters)
    (hc : s.Calls s' call metadata) : Rostered s' (os ++ [.joining call metadata])
      (Function.update label s.coordinator.runtime.nextChannel call) rosters := by
  have hlabel : ∀ channel, channel ≠ s.coordinator.runtime.nextChannel →
      Function.update label s.coordinator.runtime.nextChannel call channel = label channel :=
    fun channel hch => Function.update_of_ne hch ..
  have hwaiting :
      ∀ channel, channel ≠ s.coordinator.runtime.nextChannel → s'.readyJoin channel = s.readyJoin channel := by
    intro channel hch
    rw [State.readyJoin_append hc.readyJoins, hc.channel, Function.update_of_ne hch]
  -- The member that joins has the new channel, all others have older ones.
  have hcases : ∀ x m, s'.coordinator.member? x = some m →
      x = call.caller ∧ m.awaitJoin = s.coordinator.runtime.nextChannel ∧ m.awaitSync = m.awaitJoin ∨
        x ≠ call.caller ∧ s.coordinator.member? x = some m ∧ m.awaitJoin ≠ s.coordinator.runtime.nextChannel := by
    intro x m hm
    obtain ⟨hx, hcard⟩ | ⟨hx, hm⟩ := hc.member x m hm
    · have hjoin : m.awaitJoin = s.coordinator.runtime.nextChannel := congrArg (·.fst) hcard
      have hsync : m.awaitSync = s.coordinator.runtime.nextChannel := congrArg (·.snd.fst) hcard
      exact .inl ⟨hx, hjoin, hsync.trans hjoin.symm⟩
    · exact .inr ⟨hx, hm, Nat.ne_of_lt (ha.member x m hm).left⟩
  have hnext := hc.nextChannel
  refine ⟨?_, fun channel hmem result hr => ?_, fun x m hm hnone hmem => ?_, fun channel hlt m hm => ?_,
    fun x m hm => ?_, fun x m hm => ?_, fun id => ?_, fun x m hm hlt => ?_, ?_, fun id epoch hle x hx => ?_⟩
  · rw [joinAnswers_append]
    simpa [joinAnswers, Output.joined?] using h.joined
  · rw [hc.joins] at hr hmem
    by_cases hch : channel = s.coordinator.runtime.nextChannel
    case pos =>
      rw [hch, ha.empty _ (Nat.le_refl _)] at hr
      contradiction
    case neg =>
      rw [hlabel channel hch] at hmem ⊢
      rw [hwaiting channel hch] at hmem
      exact h.buffer channel hmem result hr
  · rw [hc.rounds]
    obtain ⟨rfl, hjoin, _⟩ | ⟨_, hm, hch⟩ := hcases x m hm
    · rw [hjoin, Function.update_self, hc.since]
      rfl
    · rw [hlabel _ hch] at hmem ⊢
      rw [hc.joins] at hnone hmem
      rw [hwaiting _ hch] at hmem
      exact h.pending x m hm hnone hmem
  · by_cases hch : channel = s.coordinator.runtime.nextChannel
    case pos =>
      rw [hch, Function.update_self] at hm ⊢
      obtain ⟨_, hjoin, _⟩ | ⟨hx, _⟩ := hcases _ m hm
      · rw [hjoin, Function.update_self]
      · exact absurd rfl hx
    case neg =>
      rw [hlabel channel hch] at hm ⊢
      obtain ⟨hx, hjoin, _⟩ | ⟨_, hm, hne⟩ := hcases _ m hm
      · rw [hjoin, Function.update_self, hc.since]
        have hle := ha.since channel
        rwa [show (label channel).groupID = call.groupID from congrArg (·.fst) hx] at hle
      · rw [hlabel _ hne]
        exact h.latest channel (by omega) m hm
  · obtain ⟨_, _, heq⟩ | ⟨_, hm, _⟩ := hcases x m hm
    · exact heq
    · exact h.await x m hm
  · obtain ⟨rfl, _⟩ | ⟨_, hm, _⟩ := hcases x m hm
    · exact hc.named
    · exact h.named x m hm
  · rw [hc.leader, hc.rounds]
    exact h.leader id
  · rw [hc.rounds] at hlt ⊢
    obtain ⟨rfl, hjoin, _⟩ | ⟨_, hm, hch⟩ := hcases x m hm
    · rw [hjoin, Function.update_self, hc.since] at hlt
      exact absurd hlt (Nat.lt_irrefl _)
    · rw [hlabel _ hch] at hlt
      exact h.listed x m hm hlt
  · rw [hc.rounds]
    exact h.nodup
  · rw [hc.rounds] at hle
    obtain ⟨call', hmem, hcaller'⟩ := h.metadata id epoch hle x hx
    exact ⟨call', List.mem_append_left _ hmem, hcaller'⟩

theorem receives {call : JoinCall} (ha : Answered s os label) (h : Rostered s os label rosters)
    (hr : s.Receives s' call) :
    Rostered s' (os ++ ((s.joins call.channel).receive call).snd.toList.map (.joined call)) label rosters := by
  have hlabel := ha.once.waiting _ _ hr.waiting
  -- On another channel nobody comes or goes.
  have hother : ∀ channel, channel ≠ call.channel → s'.joins channel = s.joins channel ∧
      ∀ k ∈ (s'.joins channel).waiting (s'.readyJoin channel), k ∈ (s.joins channel).waiting (s.readyJoin channel) := by
    intro channel hch
    rw [hr.joins, Function.update_of_ne hch]
    exact ⟨rfl, (Chan.Serves.perm _ (hr.readyJoin_of_ne hch)).subset⟩
  refine ⟨fun x hx => ?_, fun channel hmem result hresult => ?_, fun x m hm hbuffer hmem => ?_, ?_, ?_, ?_,
    fun id => ?_, ?_, ?_, fun id epoch hle x hx => ?_⟩
  · rw [joinAnswers_append, List.mem_append] at hx
    cases hx
    case inl hold => exact h.joined x hold
    case inr hnew =>
      cases (s.joins call.channel).receive_cases call
      case inl hreceive =>
        obtain ⟨result, hbuffer, hsnd, _⟩ := hreceive
        rw [hsnd] at hnew
        cases List.mem_singleton.mp hnew
        have heq := h.buffer call.channel (hlabel ▸ hr.waiting) result hbuffer
        rwa [← hlabel] at heq
      case inr hreceive =>
        rw [hreceive.right.left] at hnew
        contradiction
  · by_cases hch : channel = call.channel
    case pos =>
      rw [hch, hr.buffer_eq_none] at hresult
      contradiction
    case neg =>
      obtain ⟨heq, hwaiting⟩ := hother channel hch
      exact h.buffer channel (hwaiting _ hmem) result (heq ▸ hresult)
  · rw [hr.member?_eq] at hm
    rw [hr.rounds]
    by_cases hch : m.awaitJoin = call.channel
    case pos =>
      cases (s.joins call.channel).receive_cases call
      case inl hreceive =>
        -- The call has its answer, and waits no more.
        obtain ⟨result, _, hsnd, _⟩ := hreceive
        obtain ⟨_, hnil, _⟩ := (ha.receives hr).once.answersTo_eq_nil hmem
        have hanswer : result ∈ answersTo call (joinAnswers
            (os ++ ((s.joins call.channel).receive call).snd.toList.map (.joined call))) := by
          rw [mem_answersTo, joinAnswers_append, hsnd]
          exact List.mem_append_right _ List.mem_cons_self
        rw [hch, ← hlabel] at hnil
        rw [hnil] at hanswer
        contradiction
      case inr hreceive =>
        refine h.pending x m hm ?_ ?_
        · rw [hch]
          exact hreceive.left
        · rw [hch, ← hlabel]
          exact hr.waiting
    case neg =>
      obtain ⟨heq, hwaiting⟩ := hother m.awaitJoin hch
      exact h.pending x m hm (heq ▸ hbuffer) (hwaiting _ hmem)
  · rw [hr.member?_eq, hr.nextChannel]
    exact h.latest
  · rw [hr.member?_eq]
    exact h.await
  · rw [hr.member?_eq]
    exact h.named
  · rw [hr.rounds, hr.coordinator]
    exact h.leader id
  · rw [hr.member?_eq, hr.rounds]
    exact h.listed
  · rw [hr.rounds]
    exact h.nodup
  · rw [hr.rounds] at hle
    obtain ⟨call', hmem, hcaller'⟩ := h.metadata id epoch hle x hx
    exact ⟨call', List.mem_append_left _ hmem, hcaller'⟩

section Completes

variable {g g' : Group} {leaderMembers : List JoinMember} {delivered : List (JoinCall × JoinResult)}

-- The roster of a generation that is being completed.
def rosterOf (g' : Group) (leaderMembers : List JoinMember) : Roster where
  leaderID := g'.leaderID
  protocol := g'.protocol
  members  := leaderMembers

-- The answers that are already there, and those that the new generation gives.
theorem tells_add {epoch : Nat} {r : Roster} {call : JoinCall} {result : JoinResult}
    (h : call.groupID = groupID → call.since + 1 ≤ epoch) (htells : rosters.Tells call result) :
    (rosters.add groupID (epoch + 1) r).Tells call result := by
  rw [Rosters.Tells, Rosters.answerTo, Rosters.add_of_ne fun hid => by have := h hid; omega]
  exact htells

theorem tells_add_self {epoch : Nat} {r : Roster} {call : JoinCall} (hgroup : call.groupID = groupID)
    (hsince : call.since = epoch) (hmem : call.memberID ∈ r.members.map (·.id)) :
    (rosters.add groupID (epoch + 1) r).Tells call (r.answer (epoch + 1) call.memberID) := by
  rw [Rosters.Tells, Rosters.answerTo, hgroup, hsince, Rosters.add_self]
  exact ⟨rfl, hmem⟩

theorem completes (ha : Answered s os label) (hv : s.Valid) (h : Rostered s os label rosters)
    (hcompletes : s.coordinator.Completes groupID g g' leaderMembers s'.coordinator delivered)
    (hready : s'.readyJoins = s.readyJoins)
    (hrounds : s'.rounds = Function.update s.rounds groupID ⟨(s.rounds groupID).epoch + 1, none⟩) :
    Rostered s' (os ++ delivered.map fun (call, result) => .joined call result) label
      (rosters.add groupID ((s.rounds groupID).epoch + 1) (rosterOf g' leaderMembers)) := by
  have hvalid := hv.coordinator groupID g hcompletes.lookup
  have hready' : s'.readyJoin = s.readyJoin := State.readyJoin_congr hready
  have hround : (s'.rounds groupID).epoch = (s.rounds groupID).epoch + 1 := by rw [hrounds, Function.update_self]
  have hround' : ∀ id, id ≠ groupID → s'.rounds id = s.rounds id := by
    intro id hid
    rw [hrounds, Function.update_of_ne hid]
  have hgroup' := Coordinator.lookup_insert_self hcompletes.groups
  have hgen : g'.generationID = int32 ((s.rounds groupID).epoch + 1 : Nat) := by
    have hepoch := (ha.completes hcompletes hready hrounds).epoch groupID
    rwa [Coordinator.generationID_eq hgroup', hround] at hepoch
  have hmember : ∀ x m, s'.coordinator.member? x = some m → ∃ m₀, s.coordinator.member? x = some m₀ ∧
      m.awaitJoin = m₀.awaitJoin ∧ m.awaitSync = m₀.awaitSync := by
    intro x m hm
    obtain ⟨m₀, hm₀, hcard⟩ := (Coordinator.Like.completes hcompletes).member?_eq_some hm
    exact ⟨m₀, hm₀, congrArg (·.fst) hcard, congrArg (·.snd.fst) hcard⟩
  have hpending : ∀ id m, g'.members.lookup id = some m → (s.joins m.awaitJoin).buffer = none →
      label m.awaitJoin ∈ (s.joins m.awaitJoin).waiting (s.readyJoin m.awaitJoin) →
      (label m.awaitJoin).since = (s.rounds groupID).epoch := by
    intro id m hm
    obtain ⟨m₀, hm₀, hjoin, _⟩ := hmember (groupID, id) m ((Coordinator.member?_eq hgroup').trans hm)
    rw [hjoin]
    exact h.pending _ m₀ hm₀
  have hids := hcompletes.lists.map_id hvalid.member_id
  have hlisted : ∀ id m, g'.members.lookup id = some m → id ∈ leaderMembers.map (·.id) := by
    intro id m hm
    rw [hids, hvalid.mem_joinOrder]
    exact hcompletes.members.mem_iff.mp (Map.mem_of_lookup hm)
  have hresult : ∀ id m, g'.members.lookup id = some m → (label m.awaitJoin).since = (s.rounds groupID).epoch →
      (rosters.add groupID ((s.rounds groupID).epoch + 1) (rosterOf g' leaderMembers)).Tells
        (label m.awaitJoin) (g'.joinResult leaderMembers m) := by
    intro id m hm hsince
    obtain ⟨hid, hcaller⟩ := ha.owned hv.coordinator hcompletes hm
    have hmemberID : (label m.awaitJoin).memberID = id := congrArg (·.snd) hcaller
    have heq : g'.joinResult leaderMembers m =
        (rosterOf g' leaderMembers).answer ((s.rounds groupID).epoch + 1) (label m.awaitJoin).memberID := by
      rw [Roster.answer, ← hgen, hmemberID, ← hid]
      rfl
    rw [heq]
    exact tells_add_self (congrArg (·.fst) hcaller) hsince (hmemberID ▸ hlisted id m hm)
  have hold : ∀ {call : JoinCall} {result : JoinResult}, s.Later call result → rosters.Tells call result →
      (rosters.add groupID ((s.rounds groupID).epoch + 1) (rosterOf g' leaderMembers)).Tells call result := by
    rintro call result ⟨epoch, _, hlt, hle⟩
    refine tells_add fun hid => ?_
    rw [hid] at hle
    omega
  have hepochs : ∀ id, ∀ epoch ≤ (s'.rounds id).epoch, id = groupID ∧ epoch = (s.rounds groupID).epoch + 1 ∨
      (id = groupID → epoch ≠ (s.rounds groupID).epoch + 1) ∧ epoch ≤ (s.rounds id).epoch := by
    intro id epoch hle
    by_cases hid : id = groupID
    case pos =>
      subst hid
      rw [hround] at hle
      by_cases hnew : epoch = (s.rounds id).epoch + 1
      case pos => exact .inl ⟨rfl, hnew⟩
      case neg => exact .inr ⟨fun _ => hnew, by omega⟩
    case neg => exact .inr ⟨fun heq => absurd heq hid, hround' id hid ▸ hle⟩
  refine ⟨fun x hx => ?_, fun channel hmem result hr => ?_, fun x m hm hnone hmem => ?_, fun channel hlt m hm => ?_,
    fun x m hm => ?_, fun x m hm => ?_, fun id => ?_, fun x m hm hlt => ?_, fun id epoch hle => ?_,
    fun id epoch hle x hx => ?_⟩
  · rw [joinAnswers_append, joinAnswers_map, List.mem_append] at hx
    cases hx
    case inl hx => exact hold (ha.joined x hx) (h.joined x hx)
    case inr hx =>
      obtain ⟨id, m, hm, hlabel, hreceiver, hsnd⟩ := ha.delivered_cases hcompletes x hx
      have hnone := (s.joins m.awaitJoin).parked (List.ne_nil_of_mem hreceiver)
      rw [hlabel] at hreceiver
      rw [hsnd, hlabel]
      exact hresult id m hm (hpending id m hm hnone (List.mem_append_left _ hreceiver))
  · rw [hready'] at hmem
    by_cases hown : ∃ id m, g'.members.lookup id = some m ∧ m.awaitJoin = channel
    case pos =>
      obtain ⟨id, m, hm, rfl⟩ := hown
      rw [(ha.sent hv.coordinator hcompletes hm).left] at hr hmem
      have hmem' := ((s.joins m.awaitJoin).serves_send _ (s.readyJoin m.awaitJoin)).subset hmem
      cases (s.joins m.awaitJoin).send_cases (g'.joinResult leaderMembers m)
      case inl hsend =>
        obtain ⟨_, _, _, _, hnone⟩ := hsend
        rw [hnone] at hr
        contradiction
      case inr hsend =>
        rw [hsend.right.right.right, Option.mem_def, Option.or_eq_some_iff] at hr
        obtain hr | ⟨hnone, hr⟩ := hr
        · exact hold (ha.buffer _ result hr) (h.buffer _ hmem' result hr)
        · cases hr
          exact hresult id m hm (hpending id m hm hnone hmem')
    case neg =>
      have hsame : s'.joins channel = s.joins channel :=
        hcompletes.unsent fun id m hm heq => hown ⟨id, m, hm, heq⟩
      rw [hsame] at hr hmem
      exact hold (ha.buffer _ result hr) (h.buffer channel hmem result hr)
  · rw [hready'] at hmem
    by_cases hid : x.fst = groupID
    case pos =>
      -- Whoever waited has got an answer.
      rw [Coordinator.member?_eq (hid ▸ hgroup')] at hm
      rw [(ha.sent hv.coordinator hcompletes hm).left] at hnone hmem
      cases (s.joins m.awaitJoin).send_cases (g'.joinResult leaderMembers m)
      case inl hsend =>
        obtain ⟨k, hreceivers, _, _, _⟩ := hsend
        have hk : k ∈ (s.joins m.awaitJoin).waiting (s.readyJoin m.awaitJoin) := by simp [Chan.waiting, hreceivers]
        have halone := (ha.once.answersTo_eq_nil hk).right.right
        rw [Chan.waiting, hreceivers, List.cons_append, List.cons.injEq] at halone
        rw [Chan.waiting, halone.right] at hmem
        contradiction
      case inr hsend =>
        rw [hsend.right.right.right] at hnone
        simp at hnone
    case neg =>
      obtain ⟨m₀, hm₀, hjoin, _⟩ := hmember x m hm
      have hother : s'.joins m.awaitJoin = s.joins m.awaitJoin := hcompletes.unsent fun id m' hm' heq => hid (by
        have hcaller := (ha.owned hv.coordinator hcompletes hm').right
        rw [heq, hjoin, (ha.member x m₀ hm₀).right] at hcaller
        rw [hcaller])
      rw [hother, hjoin] at hnone hmem
      rw [hround' _ hid, hjoin]
      exact h.pending x m₀ hm₀ hnone hmem
  · obtain ⟨m₀, hm₀, hjoin, _⟩ := hmember _ m hm
    rw [hjoin]
    exact h.latest channel (hcompletes.runtime.nextChannel ▸ hlt) m₀ hm₀
  · obtain ⟨m₀, hm₀, hjoin, hsync⟩ := hmember x m hm
    rw [hjoin, hsync]
    exact h.await x m₀ hm₀
  · obtain ⟨m₀, hm₀, _⟩ := hmember x m hm
    exact h.named x m₀ hm₀
  · by_cases hid : id = groupID
    case pos =>
      rw [hid, Coordinator.leaderID_eq hgroup', hround, Rosters.add_self]
      exact .inr rfl
    case neg =>
      rw [Coordinator.leaderID_of_ne hcompletes.groups hid, hround' id hid, Rosters.add_of_ne fun heq => absurd heq hid]
      exact h.leader id
  · by_cases hid : x.fst = groupID
    case pos =>
      rw [Coordinator.member?_eq (hid ▸ hgroup')] at hm
      rw [hid, hround, Rosters.add_self]
      exact hlisted x.snd m hm
    case neg =>
      obtain ⟨m₀, hm₀, hjoin, _⟩ := hmember x m hm
      rw [hround' _ hid, hjoin] at hlt
      rw [hround' _ hid, Rosters.add_of_ne fun heq => absurd heq hid]
      exact h.listed x m₀ hm₀ hlt
  · obtain ⟨rfl, rfl⟩ | ⟨hne, hle⟩ := hepochs id epoch hle
    · rw [Rosters.add_self, rosterOf, hids]
      exact hvalid.nodup
    · rw [Rosters.add_of_ne hne]
      exact h.nodup id epoch hle
  · obtain ⟨rfl, rfl⟩ | ⟨hne, hle⟩ := hepochs id epoch hle
    · rw [Rosters.add_self] at hx
      obtain ⟨memberID, m, hm, rfl⟩ := hcompletes.lists.exists_lookup hx
      rw [hvalid.member_id memberID m hm]
      have hmember : s.coordinator.member? (id, memberID) = some m :=
        (Coordinator.member?_eq hcompletes.lookup).trans hm
      obtain ⟨call, hcall, hcaller⟩ := mem_of_latestMetadata (ha.metadata _ m hmember)
      exact ⟨call, List.mem_append_left _ hcall, hcaller⟩
    · rw [Rosters.add_of_ne hne] at hx
      obtain ⟨call, hcall, hcaller⟩ := h.metadata id epoch hle x hx
      exact ⟨call, List.mem_append_left _ hcall, hcaller⟩

end Completes

-- One step. The rosters of the generations that are completed stay as they are.
theorem step (ha : Answered s os label) (hv : s.Valid) (h : Rostered s os label rosters)
    (hs : machine.step s a = some (s', o)) :
    ∃ label' rosters', Answered s' (os ++ o) label' ∧ Rostered s' (os ++ o) label' rosters' ∧
      (∀ channel < s.coordinator.runtime.nextChannel, label' channel = label channel) ∧
      ∀ id, ∀ epoch ≤ (s.rounds id).epoch, rosters' id epoch = rosters id epoch := by
  cases joinMoves hs
  case unjoined hu => exact ⟨label, rosters, ha.unjoined hu, h.unjoined hu, fun _ _ => rfl, fun _ _ _ => rfl⟩
  case calls hc ho =>
    subst ho
    exact ⟨_, rosters, ha.calls hc, calls ha h hc, fun channel hlt => Function.update_of_ne (by omega) ..,
      fun _ _ _ => rfl⟩
  case completes hcompletes hready hrounds ho =>
    subst ho
    refine ⟨label, _, ha.completes hcompletes hready hrounds, completes ha hv h hcompletes hready hrounds,
      fun _ _ => rfl, fun id epoch hle => Rosters.add_of_ne fun hid => ?_⟩
    rw [hid] at hle
    omega
  case receives hr ho =>
    subst ho
    exact ⟨label, rosters, ha.receives hr, receives ha h hr, fun _ _ => rfl, fun _ _ _ => rfl⟩

end Rostered
end ConsumerGroup
