import Gokaf.Go.Waiting
import Gokaf.Group.Coordinator

open Go Protocol

namespace ConsumerGroup

-- The same member up to its session timer.
def Member.Same (m m' : Member) : Prop :=
  m' = { m with sessionTimer := m'.sessionTimer }

namespace Member.Same

variable {m m' m'' : Member}

theorem refl (m : Member) : m.Same m :=
  rfl

theorem trans (h : m.Same m') (h' : m'.Same m'') : m.Same m'' := by
  rw [Same, h', h]

end Member.Same

namespace Group

variable {g g' : Group} {ms ms' : Map Bytes Member} {id : Bytes} {m m' : Member}

-- The same group up to the session timers.
structure Touched (g g' : Group) : Prop where
  eq      : g' = { g with members := g'.members }
  members : g.members.Rel (fun _ => Member.Same) g'.members

theorem Touched.refl (g : Group) : g.Touched g :=
  ⟨rfl, .refl (fun _ => Member.Same.refl) _⟩

theorem Touched.insert (hm : g.members.lookup id = some m) (hs : m.Same m') :
    g.Touched { g with members := g.members.insert id m' } :=
  ⟨rfl, .insert (fun _ => Member.Same.refl) hm hs⟩

-- What a leader's `Sync` makes of a member.
def Assigned (assignments : Assignments) (id : Bytes) (m m' : Member) : Prop :=
  { m with assignment := (assignments.lookup id).getD m.assignment }.Same m'

theorem lookup_assignOne (ms : Map Bytes Member) (id' a id : Bytes) :
    (assignOne ms id' a).lookup id =
      if id = id' then (ms.lookup id).map fun m => { m with assignment := a } else ms.lookup id := by
  unfold assignOne
  split
  case h_1 m hm =>
    split
    case isTrue heq =>
      subst heq
      rw [AList.lookup_insert, hm, Option.map_some]
    case isFalse hne => rw [AList.lookup_insert_ne hne]
  case h_2 hnone =>
    split
    case isTrue heq =>
      subst heq
      rw [hnone, Option.map_none]
    case isFalse => rfl

theorem lookup_foldl_assignOne (es : List (Σ _ : Bytes, Bytes)) (hes : es.NodupKeys) (ms : Map Bytes Member)
    (id : Bytes) :
    (es.foldl (fun members e => assignOne members e.fst e.snd) ms).lookup id =
      (ms.lookup id).map fun m => { m with assignment := (es.dlookup id).getD m.assignment } := by
  induction es generalizing ms
  case nil => simp
  case cons e es hi =>
    have ⟨id', a⟩ := e
    have ⟨hfresh, hes⟩ := List.nodupKeys_cons.mp hes
    rw [List.foldl_cons, hi hes, lookup_assignOne]
    by_cases h : id = id'
    case pos =>
      -- The key does not come again.
      subst h
      rw [if_pos rfl, List.dlookup_cons_eq, List.dlookup_eq_none.mpr hfresh, Option.map_map]
      rfl
    case neg => rw [if_neg h, List.dlookup_cons_ne _ _ h]

theorem lookup_assign (ms : Map Bytes Member) (assignments : Assignments) (id : Bytes) :
    (assign ms assignments).lookup id =
      (ms.lookup id).map fun m => { m with assignment := (assignments.lookup id).getD m.assignment } :=
  lookup_foldl_assignOne _ assignments.nodupKeys ms id

theorem rel_assign (ms : Map Bytes Member) (assignments : Assignments) :
    ms.Rel (fun id m m' => m' = { m with assignment := (assignments.lookup id).getD m.assignment })
      (assign ms assignments) := by
  intro id
  rw [lookup_assign]
  cases ms.lookup id
  case none   => exact .none
  case some m => exact .some rfl

end Group

namespace Runtime

variable {rt rt' : Runtime} {now : Int} {groupID : Bytes} {m : Member}

-- The same channels and join timers.
def Same (rt rt' : Runtime) : Prop :=
  rt' = { rt with sessionTimers := rt'.sessionTimers }

theorem Same.refl (rt : Runtime) : rt.Same rt :=
  rfl

theorem Same.trans {rt'' : Runtime} (h : rt.Same rt') (h' : rt'.Same rt'') : rt.Same rt'' := by
  rw [Same, h', h]

namespace Same

theorem joins (h : rt.Same rt') : rt'.joins = rt.joins := by
  rw [h]

theorem syncs (h : rt.Same rt') : rt'.syncs = rt.syncs := by
  rw [h]

theorem nextChannel (h : rt.Same rt') : rt'.nextChannel = rt.nextChannel := by
  rw [h]

theorem joinTimers (h : rt.Same rt') : rt'.joinTimers = rt.joinTimers := by
  rw [h]

end Same

theorem same_touch (rt : Runtime) (now : Int) (groupID : Bytes) (m : Member) :
    rt.Same (rt.touch now groupID m).fst ∧ m.Same (rt.touch now groupID m).snd := by
  unfold touch
  cases m.sessionTimer
  case none => exact ⟨rfl, rfl⟩
  case some => exact ⟨rfl, rfl⟩

theorem same_stopSessionTimer (rt : Runtime) (m : Member) :
    rt.Same (rt.stopSessionTimer m).fst ∧ (rt.stopSessionTimer m).snd = { m with sessionTimer := none } := by
  unfold stopSessionTimer
  split
  case h_1 hnone => exact ⟨rfl, by rw [← hnone]⟩
  case h_2       => exact ⟨rfl, rfl⟩

theorem same_forEach (rt : Runtime) (now : Int) (groupID : Bytes) (ms : Map Bytes Member) :
    let r := ms.forEach (fun rt m => rt.touch now groupID m) rt
    rt.Same r.fst ∧ ms.Rel (fun _ => Member.Same) r.snd := by
  refine ⟨?_, Map.rel_forEach ms rt fun rt _ m => (rt.same_touch now groupID m).right⟩
  exact Map.forEach_induction (P := rt.Same) ms (.refl rt) fun rt' m h => h.trans (rt'.same_touch now groupID m).left

-- The results go to the channels of the members one by one. `P` is kept by each of them, and `Q` is
-- what holds of the calls that are answered.
theorem distribute_induction {P : (Nat → Chan SyncResult SyncCall) → Prop} {Q : SyncCall → SyncResult → Prop}
    (rt : Runtime) (memberID : Bytes) (members : List Member) (hP : P rt.syncs)
    (hsend : ∀ syncs, P syncs → ∀ w ∈ members,
      let sent := (syncs w.awaitSync).send ⟨w.assignment, .none⟩
      P (Function.update syncs w.awaitSync sent.fst) ∧ ∀ call ∈ sent.snd, Q call ⟨w.assignment, .none⟩) :
    (∃ syncs, P syncs ∧ (rt.distribute memberID members).fst = { rt with syncs }) ∧
      ∀ r ∈ (rt.distribute memberID members).snd, Q r.fst r.snd := by
  induction members generalizing rt
  case nil => exact ⟨⟨rt.syncs, hP, rfl⟩, by simp [distribute]⟩
  case cons w members hi =>
    have hsend' := fun syncs hs w' hw' => hsend syncs hs w' (List.mem_cons_of_mem w hw')
    unfold distribute
    split
    case isTrue => exact hi rt hP hsend'
    case isFalse =>
      have ⟨hP', hQ⟩ := hsend rt.syncs hP w List.mem_cons_self
      have ⟨⟨syncs, hsyncs, heq⟩, hdelivered⟩ := hi { rt with syncs := _ } hP' hsend'
      refine ⟨⟨syncs, hsyncs, heq⟩, List.forall_mem_append.mpr ⟨?_, hdelivered⟩⟩
      intro r hr
      have ⟨call, hcall, heq⟩ := List.mem_map.mp hr
      subst heq
      exact hQ call (by simpa using hcall)

theorem distribute_fst (rt : Runtime) (memberID : Bytes) (members : List Member) :
    (rt.distribute memberID members).fst = { rt with syncs := (rt.distribute memberID members).fst.syncs } := by
  have ⟨⟨syncs, _, heq⟩, _⟩ := rt.distribute_induction (P := fun _ => True) (Q := fun _ _ => True) memberID members
    trivial fun _ _ _ _ => ⟨trivial, fun _ _ => trivial⟩
  rw [heq]

end Runtime

namespace Group

variable {g : Group} {groupID : Bytes} {now : Int} {rt rt' : Runtime} {ms ms' : Map Bytes Member}
variable {ids : List Bytes} {leaderMembers : List JoinMember} {delivered : List (JoinCall × JoinResult)}

-- The list that the leader gets has the members in the given order.
def Lists (ms : Map Bytes Member) (ids : List Bytes) (leaderMembers : List JoinMember) : Prop :=
  ids.Forall₂ (fun id jm => ∃ m, ms.lookup id = some m ∧ jm = ⟨m.id, m.metadata⟩) leaderMembers

theorem Lists.same (h : Lists ms' ids leaderMembers) (hms : ms.Rel (fun _ => Member.Same) ms') :
    Lists ms ids leaderMembers := by
  refine h.imp fun id jm hjm => ?_
  have ⟨m', hm', heq⟩ := hjm
  have ⟨m, hm, hsame⟩ := hms.lookup_right hm'
  rw [hsame] at heq
  exact ⟨m, hm, heq⟩

theorem touchAll_eq_some (h : touchAll groupID now rt ms ids = some (rt', ms', leaderMembers)) :
    rt.Same rt' ∧ ms.Rel (fun _ => Member.Same) ms' ∧ Lists ms ids leaderMembers := by
  induction ids generalizing rt ms leaderMembers
  case nil =>
    cases h
    exact ⟨.refl _, .refl (fun _ => Member.Same.refl) _, .nil⟩
  case cons id ids hi =>
    simp only [touchAll, Option.bind_eq_bind, Option.bind_eq_some_iff] at h
    have ⟨m, hm, ⟨rt₁, ms₁, jms⟩, hrest, heq⟩ := h
    cases heq
    have ⟨hrt, hsame⟩ := rt.same_touch now groupID m
    have hms := Map.Rel.insert (R := fun _ => Member.Same) (fun _ => Member.Same.refl) hm hsame
    have ⟨hrt', hms', hlist⟩ := hi hrest
    refine ⟨hrt.trans hrt', hms.trans hms' fun _ _ _ _ => Member.Same.trans, .cons ?_ (hlist.same hms)⟩
    rw [hsame]
    exact ⟨m, hm, rfl⟩

theorem exists_touchAll (h : ∀ id ∈ ids, id ∈ ms) : ∃ r, touchAll groupID now rt ms ids = some r := by
  induction ids generalizing rt ms
  case nil => exact ⟨_, rfl⟩
  case cons id ids hi =>
    have ⟨m, hm⟩ := Option.isSome_iff_exists.mp (AList.lookup_isSome.mpr (h id List.mem_cons_self))
    have ⟨r, hr⟩ := @hi (rt.touch now groupID m).fst (ms.insert id (rt.touch now groupID m).snd)
      fun id' hid' => (AList.mem_insert ms).mpr (.inr (h id' (List.mem_cons_of_mem _ hid')))
    simp [touchAll, hm, hr]

-- The results go to the channels of the members one by one. `P` is kept by each of them.
theorem answerAll_fold {P : (Nat → Chan JoinResult JoinCall) → List (JoinCall × JoinResult) → Prop}
    (h : g.answerAll leaderMembers rt ids = some (rt', delivered)) (given : List (JoinCall × JoinResult))
    (hP : P rt.joins given)
    (hsend : ∀ joins given, P joins given → ∀ id ∈ ids, ∀ m, g.members.lookup id = some m →
      let sent := (joins m.awaitJoin).send (g.joinResult leaderMembers m)
      P (Function.update joins m.awaitJoin sent.fst)
        (given ++ sent.snd.toList.map (·, g.joinResult leaderMembers m))) :
    ∃ joins, P joins (given ++ delivered) ∧ rt' = { rt with joins } := by
  induction ids generalizing rt given delivered
  case nil =>
    cases h
    exact ⟨_, by rwa [List.append_nil], rfl⟩
  case cons id ids hi =>
    simp only [answerAll, Option.bind_eq_bind, Option.bind_eq_some_iff] at h
    have ⟨m, hm, ⟨rt₁, delivered'⟩, hrest, heq⟩ := h
    cases heq
    have hP' := hsend rt.joins given hP id List.mem_cons_self m hm
    have ⟨joins, hjoins, heq⟩ := hi hrest _ hP'
      fun joins given hP id' hid' => hsend joins given hP id' (List.mem_cons_of_mem _ hid')
    exact ⟨joins, by rwa [← List.append_assoc], heq⟩

theorem answerAll_eq_some (h : g.answerAll leaderMembers rt ids = some (rt', delivered)) :
    rt' = { rt with joins := rt'.joins } := by
  have ⟨joins, _, heq⟩ := answerAll_fold (P := fun _ _ => True) h [] trivial fun _ _ _ _ _ _ _ => trivial
  rw [heq]

theorem answerAll_unsent {channel : Nat} (h : g.answerAll leaderMembers rt ids = some (rt', delivered))
    (hne : ∀ id ∈ ids, ∀ m, g.members.lookup id = some m → m.awaitJoin ≠ channel) :
    rt'.joins channel = rt.joins channel := by
  have ⟨joins, hjoins, heq⟩ := answerAll_fold (P := fun joins _ => joins channel = rt.joins channel) h [] rfl
    fun joins _ hP id hid m hm => (Function.update_of_ne (hne id hid m hm).symm ..).trans hP
  rw [heq]
  exact hjoins

-- If the members have channels of their own, one result is sent to each.
theorem answerAll_sent {id : Bytes} {m : Member} (h : g.answerAll leaderMembers rt ids = some (rt', delivered))
    (hnodup : ids.Nodup)
    (hinj : ∀ id id' m m', g.members.lookup id = some m → g.members.lookup id' = some m' →
      m.awaitJoin = m'.awaitJoin → id = id')
    (hid : id ∈ ids) (hm : g.members.lookup id = some m) :
    let sent := (rt.joins m.awaitJoin).send (g.joinResult leaderMembers m)
    rt'.joins m.awaitJoin = sent.fst ∧ ∀ call ∈ sent.snd, (call, g.joinResult leaderMembers m) ∈ delivered := by
  induction ids generalizing rt delivered
  case nil => contradiction
  case cons id' ids hi =>
    have ⟨hnotMem, hnodup⟩ := List.nodup_cons.mp hnodup
    simp only [answerAll, Option.bind_eq_bind, Option.bind_eq_some_iff] at h
    have ⟨m', hm', ⟨rt₁, delivered'⟩, hrest, heq⟩ := h
    cases heq
    by_cases heq : id = id'
    case pos =>
      subst heq
      cases hm.symm.trans hm'
      have hunsent := answerAll_unsent hrest fun id' hid' m' hm' hch =>
        hnotMem (hinj id' id m' m hm' hm hch ▸ hid')
      refine ⟨hunsent.trans (Function.update_self ..), fun call hcall => ?_⟩
      exact List.mem_append_left _ (List.mem_map.mpr ⟨call, by simpa using hcall, rfl⟩)
    case neg =>
      have hne : m.awaitJoin ≠ m'.awaitJoin := fun hch => heq (hinj id id' m m' hm hm' hch)
      have ⟨hjoins, hdelivered⟩ := hi hrest hnodup ((List.mem_cons.mp hid).resolve_left heq)
      simp only [Function.update_of_ne hne] at hjoins hdelivered
      exact ⟨hjoins, fun call hcall => List.mem_append_right _ (hdelivered call hcall)⟩

theorem exists_answerAll (h : ∀ id ∈ ids, id ∈ g.members) : ∃ r, g.answerAll leaderMembers rt ids = some r := by
  induction ids generalizing rt
  case nil => exact ⟨_, rfl⟩
  case cons id ids hi =>
    have ⟨m, hm⟩ := Option.isSome_iff_exists.mp (AList.lookup_isSome.mpr (h id List.mem_cons_self))
    let ch := ((rt.joins m.awaitJoin).send (g.joinResult leaderMembers m)).fst
    have ⟨r, hr⟩ := @hi { rt with joins := Function.update rt.joins m.awaitJoin ch }
      fun id' hid' => h id' (List.mem_cons_of_mem _ hid')
    simp only [ch] at hr
    simp [answerAll, hm, hr]

end Group

namespace Coordinator

variable {c c' : Coordinator} {now : Int} {groupID memberID : Bytes} {g g' : Group} {rt : Runtime}

-- The same coordinator up to the session timers.
structure Touched (c c' : Coordinator) : Prop where
  groups        : c.groups.Rel (fun _ => Group.Touched) c'.groups
  runtime       : c.runtime.Same c'.runtime
  nextMemberSeq : c'.nextMemberSeq = c.nextMemberSeq

theorem Touched.refl (c : Coordinator) : c.Touched c :=
  ⟨.refl (fun _ => Group.Touched.refl) _, .refl _, rfl⟩

theorem Touched.setGroup (hg : c.groups.lookup groupID = some g) (ht : g.Touched g') (hrt : c.runtime.Same rt) :
    c.Touched (c.setGroup groupID (rt, g')) :=
  ⟨.insert (fun _ => Group.Touched.refl) hg ht, hrt, rfl⟩

theorem touched_heartbeat (c : Coordinator) (now : Int) (req : HeartbeatRequest) :
    c.Touched (c.heartbeat now req).fst := by
  unfold heartbeat
  split
  case h_1 => exact .refl c
  case h_2 g hg =>
    split
    case h_1 => exact .refl c
    case h_2 m hm =>
      split
      case isTrue => exact .refl c
      case isFalse =>
        split
        case isTrue => exact .refl c
        case isFalse =>
          have ⟨hrt, hsame⟩ := c.runtime.same_touch now req.groupID m
          exact .setGroup hg (.insert hm hsame) hrt

-- What the `Sync` of a leader does.
structure Leads (c : Coordinator) (req : SyncRequest) (g g' : Group) (c' : Coordinator) (result : SyncResult)
    (delivered : List (SyncCall × SyncResult)) : Prop where
  lookup        : c.groups.lookup req.groupID = some g
  member        : req.memberID ∈ g.members
  generation    : req.generationID = g.generationID
  leader        : req.memberID = g.leaderID
  eq            : g' = { g with state := .stable, members := g'.members }
  members       : g.members.Rel (Group.Assigned req.assignments) g'.members
  result        : ∃ m, g'.members.lookup req.memberID = some m ∧ result = ⟨m.assignment, .none⟩
  groups        : c'.groups = c.groups.insert req.groupID g'
  runtime       : { c.runtime with syncs := c'.runtime.syncs }.Same c'.runtime
  nextMemberSeq : c'.nextMemberSeq = c.nextMemberSeq
  sends         : ∃ (rt : Runtime) (id : Bytes), rt.syncs = c.runtime.syncs ∧
    c'.runtime.syncs = (rt.distribute id (g'.members.entries.map (·.snd))).fst.syncs ∧
    delivered = (rt.distribute id (g'.members.entries.map (·.snd))).snd

namespace Leads

variable {req : SyncRequest} {result : SyncResult} {delivered : List (SyncCall × SyncResult)}

theorem induction {P : (Nat → Chan SyncResult SyncCall) → Prop} {Q : SyncCall → SyncResult → Prop}
    (h : c.Leads req g g' c' result delivered) (hP : P c.runtime.syncs)
    (hsend : ∀ syncs, P syncs → ∀ id w, g'.members.lookup id = some w →
      let sent := (syncs w.awaitSync).send ⟨w.assignment, .none⟩
      P (Function.update syncs w.awaitSync sent.fst) ∧ ∀ call ∈ sent.snd, Q call ⟨w.assignment, .none⟩) :
    P c'.runtime.syncs ∧ ∀ r ∈ delivered, Q r.fst r.snd := by
  obtain ⟨rt, memberID, hrt, hsyncs, rfl⟩ := h.sends
  obtain ⟨⟨syncs, hP', heq⟩, hdelivered⟩ := rt.distribute_induction (P := P) (Q := Q) memberID
    (g'.members.entries.map (·.snd)) (hrt ▸ hP) fun syncs hP w hw => by
      obtain ⟨⟨id, w'⟩, hentry, rfl⟩ := List.mem_map.mp hw
      exact hsend syncs hP id w' (AList.mem_lookup_iff.mpr hentry)
  rw [hsyncs, heq]
  exact ⟨hP', hdelivered⟩

-- Each result meets the condition of the channel that it is sent to.
theorem held {n : Nat} {H : Nat → SyncResult → Prop} {A : Nat → SyncCall → Prop} {Q : SyncCall → SyncResult → Prop}
    (h : c.Leads req g g' c' result delivered) (hheld : Held c.runtime.syncs H A)
    (hQ : ∀ channel result call, H channel result → A channel call → Q call result)
    (hmembers : ∀ id m, g'.members.lookup id = some m → m.awaitSync < n ∧ H m.awaitSync ⟨m.assignment, .none⟩) :
    (Held c'.runtime.syncs H A ∧ ∀ channel, n ≤ channel → c'.runtime.syncs channel = c.runtime.syncs channel) ∧
      ∀ r ∈ delivered, Q r.fst r.snd := by
  refine h.induction
    (P := fun syncs => Held syncs H A ∧ ∀ channel, n ≤ channel → syncs channel = c.runtime.syncs channel)
    ⟨hheld, fun _ _ => rfl⟩ fun syncs hP id w hw => ?_
  obtain ⟨hlt, hresult⟩ := hmembers id w hw
  obtain ⟨hsent, hcalls⟩ := hP.left.send hresult
  refine ⟨⟨hsent, fun channel hle => ?_⟩, fun call hcall => hQ _ _ _ hresult (hcalls call hcall)⟩
  rw [Function.update_of_ne (by omega)]
  exact hP.right channel hle

end Leads

-- What a `Sync` can do, and how it ends.
inductive Syncs (c : Coordinator) (req : SyncRequest) : Coordinator → Synced → Prop
  | refused {errorCode : ErrorCode} : errorCode ≠ .none → Syncs c req c (.answer { errorCode })
  | leader {g g' : Group} {c' : Coordinator} {result : SyncResult} {delivered : List (SyncCall × SyncResult)} :
    c.Leads req g g' c' result delivered → Syncs c req c' (.distributed result delivered)
  | stable {g : Group} {m : Member} {c' : Coordinator} :
    c.groups.lookup req.groupID = some g → g.members.lookup req.memberID = some m →
    req.generationID = g.generationID → g.state = .stable → c.Touched c' →
    Syncs c req c' (.answer { assignment := m.assignment, errorCode := .none })
  | waits {g : Group} {m : Member} {c' : Coordinator} :
    c.groups.lookup req.groupID = some g → g.members.lookup req.memberID = some m →
    req.generationID = g.generationID → c.Touched c' → Syncs c req c' (.receive m.awaitSync)

theorem syncs (c : Coordinator) (now : Int) (req : SyncRequest) :
    Syncs c req (c.sync now req).fst (c.sync now req).snd := by
  unfold sync
  split
  case h_1 => exact .refused (by decide)
  case h_2 g hg =>
    split
    case h_1 => exact .refused (by decide)
    case h_2 m hm =>
      split
      case isTrue => exact .refused (by decide)
      case isFalse hgen =>
        have hgen := not_not.mp hgen
        split
        case isTrue hlead =>
          have ⟨hrt, hrel⟩ :=
            c.runtime.same_forEach now g.id (Group.assign g.members req.assignments)
          have hassigned : g.members.Rel (Group.Assigned req.assignments) _ :=
            (Group.rel_assign g.members req.assignments).trans hrel fun id m m' m'' heq hsame => by
              subst heq
              exact hsame
          have ⟨m', hm', _⟩ := hassigned.lookup_left hm
          refine .leader ⟨hg, Map.mem_of_lookup hm, hgen, hlead, rfl, hassigned, ⟨m', hm', ?_⟩, rfl, ?_, rfl,
            _, m.id, hrt.syncs, rfl, rfl⟩
          · simp only [hm', Option.elim_some]
          · dsimp only [Runtime.Same, setGroup]
            rw [Runtime.distribute_fst, hrt]
        case isFalse hlead =>
          have ⟨hrt, hsame⟩ := c.runtime.same_touch now g.id m
          have htouched := Touched.setGroup hg (.insert hm hsame) hrt
          dsimp only
          split
          case isTrue hstate  => exact .stable hg hm hgen hstate htouched
          case isFalse hstate => exact .waits hg hm hgen htouched

-- The id that a `Join` takes.
def memberIDFor (c : Coordinator) (req : JoinRequest) : Bytes :=
  if req.memberID = [] then (c.nextMemberID req.clientID).snd else req.memberID

-- The sequence number after a `Join`.
def joinedSeq (c : Coordinator) (req : JoinRequest) : Int :=
  if req.memberID = [] then int64 (c.nextMemberSeq + 1) else c.nextMemberSeq

-- The member and its group after a `Join`, up to the join timer.
def joinedMember (c : Coordinator) (req : JoinRequest) (memberID : Bytes) : Member :=
  { ((c.getOrCreateGroup req.groupID).members.lookup memberID).getD { id := memberID } with
    sessionTimeoutMS := req.sessionTimeoutMS
    protocol         := firstProtocolName req.protocols
    metadata         := firstProtocolMetadata req.protocols
    awaitJoin        := c.runtime.nextChannel
    awaitSync        := c.runtime.nextChannel
    sessionTimer     := none }

def joinedGroup (c : Coordinator) (req : JoinRequest) (memberID : Bytes) : Group :=
  let g := c.getOrCreateGroup req.groupID
  { g with
    state     := .preparingRebalance
    members   := g.members.insert memberID (c.joinedMember req memberID)
    joinOrder := if memberID ∈ g.members then g.joinOrder else g.joinOrder ++ [memberID] }

-- The join timer of a group is armed: it is a new one.
structure Arms (delay now : Int) (groupID : Bytes) (ts ts' : Timers Bytes) (g : Group) : Prop where
  timers : ts' = (ts.afterFunc now delay groupID).fst
  timer  : g.joinTimer = some ts.next

structure Joins (c : Coordinator) (now : Int) (req : JoinRequest) (c' : Coordinator) (memberID : Bytes) (g' : Group) :
    Prop where
  memberID_eq   : memberID = c.memberIDFor req
  groups        : c'.groups = c.groups.insert req.groupID g'
  group         : g' = { c.joinedGroup req memberID with joinTimer := g'.joinTimer }
  runtime       : { c.runtime with
    nextChannel := c.runtime.nextChannel + 1
    joinTimers  := c'.runtime.joinTimers }.Same c'.runtime
  nextMemberSeq : c'.nextMemberSeq = c.joinedSeq req
  timer         :
    if (c.getOrCreateGroup req.groupID).state = .preparingRebalance then
      g'.joinTimer = (c.getOrCreateGroup req.groupID).joinTimer ∧ c'.runtime.joinTimers = c.runtime.joinTimers
    else
      Arms c.rebalanceDelay now req.groupID c.runtime.joinTimers c'.runtime.joinTimers g'

theorem joins (c : Coordinator) (now : Int) (req : JoinRequest) :
    ∃ g', Joins c now req (c.join now req).fst (c.join now req).snd.fst g' ∧
      (c.join now req).snd.snd = c.runtime.nextChannel := by
  unfold join
  -- A generated id changes nothing but the sequence number.
  generalize hid : (if req.memberID = [] then c.nextMemberID req.clientID else (c, req.memberID)) = r
  have ⟨c₁, memberID⟩ := r
  obtain ⟨hmemberID, rfl⟩ : memberID = c.memberIDFor req ∧ c₁ = { c with nextMemberSeq := c.joinedSeq req } := by
    unfold memberIDFor joinedSeq
    split at hid
    case isTrue hnil =>
      cases hid
      simp [hnil, nextMemberID]
    case isFalse hcons =>
      cases hid
      simp [hcons]
  have ⟨groups, rebalanceDelay, seq, rt⟩ := c
  dsimp only
  have ⟨hrt, hm⟩ := Runtime.same_stopSessionTimer { rt with nextChannel := rt.nextChannel + 1 }
    { ((getOrCreateGroup ⟨groups, rebalanceDelay, seq, rt⟩ req.groupID).members.lookup memberID).getD
        { id := memberID } with
      sessionTimeoutMS := req.sessionTimeoutMS
      protocol         := firstProtocolName req.protocols
      metadata         := firstProtocolMetadata req.protocols
      awaitJoin        := rt.nextChannel
      awaitSync        := rt.nextChannel }
  generalize Runtime.stopSessionTimer _ _ = r at hrt hm
  have ⟨rt', m'⟩ := r
  dsimp only at hrt hm ⊢
  subst hm
  split
  case isTrue hstate =>
    refine ⟨_, ⟨hmemberID, rfl, rfl, ?_, rfl, ?_⟩, rfl⟩
    · rw [Runtime.Same, setGroup, armJoinTimer, hrt]
    · rw [if_neg hstate, setGroup, armJoinTimer, hrt]
      exact ⟨rfl, rfl⟩
  case isFalse hstate =>
    have hstate' : (getOrCreateGroup ⟨groups, rebalanceDelay, seq, rt⟩ req.groupID).state = .preparingRebalance :=
      not_not.mp hstate
    refine ⟨_, ⟨hmemberID, rfl, ?_, ?_, rfl, ?_⟩, rfl⟩
    · rw [joinedGroup, ← hstate']
      rfl
    · rw [Runtime.Same, setGroup, hrt]
    · rw [if_pos hstate', setGroup, hrt]
      exact ⟨rfl, rfl⟩

-- A group that has just been created has no members.
theorem lookup_of_getOrCreateGroup {id : Bytes} {m : Member}
    (h : (c.getOrCreateGroup groupID).members.lookup id = some m) :
    ∃ g, c.groups.lookup groupID = some g ∧ g.members.lookup id = some m := by
  unfold getOrCreateGroup at h
  cases hg : c.groups.lookup groupID
  case none   => simp [hg] at h
  case some g => exact ⟨g, rfl, by simpa [hg] using h⟩

namespace Joins

variable {req : JoinRequest} {id : Bytes} {m : Member}

theorem state (h : Joins c now req c' memberID g') : g'.state = .preparingRebalance := by
  rw [h.group]
  rfl

theorem nextChannel (h : Joins c now req c' memberID g') : c'.runtime.nextChannel = c.runtime.nextChannel + 1 :=
  h.runtime.nextChannel

end Joins

-- A member that joins is new, or was a member before.
theorem joinedMember_cases (c : Coordinator) (req : JoinRequest) (memberID : Bytes) :
    (c.joinedMember req memberID).id = memberID ∧ (c.joinedMember req memberID).assignment = [] ∨
      ∃ g m, c.groups.lookup req.groupID = some g ∧ g.members.lookup memberID = some m ∧
        (c.joinedMember req memberID).id = m.id ∧ (c.joinedMember req memberID).assignment = m.assignment := by
  cases hm : (c.getOrCreateGroup req.groupID).members.lookup memberID
  case none => exact .inl (by simp [joinedMember, hm])
  case some m =>
    have ⟨g, hg, hm'⟩ := lookup_of_getOrCreateGroup hm
    exact .inr ⟨g, m, hg, hm', by simp [joinedMember, hm]⟩

-- How a group goes on that has lost a member, with the timers then.
inductive GoesOn (c : Coordinator) (now : Int) (g g' : Group) (ts : Timers Bytes) : Prop
  | last : g'.members = ∅ → g'.state = .empty → g'.leaderID = [] → g'.joinTimer = g.joinTimer →
    ts = c.runtime.joinTimers → GoesOn c now g g' ts
  | preparing : g'.members ≠ ∅ → g'.state = g.state → g.state ≠ .stable → g.state ≠ .completingRebalance →
    g'.joinTimer = g.joinTimer → ts = c.runtime.joinTimers → GoesOn c now g g' ts
  | rebalances : g'.members ≠ ∅ → g'.state = .preparingRebalance → g.state = .stable ∨ g.state = .completingRebalance →
    Arms c.rebalanceDelay now g.id (g.joinTimer.elim c.runtime.joinTimers c.runtime.joinTimers.stop) ts g' →
    GoesOn c now g g' ts

-- However the group goes on, it is the old one without the member.
structure Evicts (c : Coordinator) (now : Int) (groupID memberID : Bytes) (g g' : Group) (c' : Coordinator) :
    Prop where
  lookup        : c.groups.lookup groupID = some g
  member        : memberID ∈ g.members
  groups        : c'.groups = c.groups.insert groupID g'
  members       : g'.members = g.members.erase memberID
  joinOrder     : g'.joinOrder = g.joinOrder.filter (· ≠ memberID)
  generationID  : g'.generationID = g.generationID
  id            : g'.id = g.id
  leader        : g'.leaderID = [] ∨ g'.leaderID = g.leaderID ∧ g.leaderID ≠ memberID
  goesOn        : GoesOn c now g g' c'.runtime.joinTimers
  runtime       : { c.runtime with joinTimers := c'.runtime.joinTimers }.Same c'.runtime
  nextMemberSeq : c'.nextMemberSeq = c.nextMemberSeq

theorem leaderID_removeMember (g : Group) (memberID : Bytes) : (g.removeMember memberID).leaderID = [] ∨
    (g.removeMember memberID).leaderID = g.leaderID ∧ g.leaderID ≠ memberID := by
  unfold Group.removeMember
  split
  case isTrue      => exact .inl rfl
  case isFalse hne => exact .inr ⟨rfl, hne⟩

theorem evicts (h : c.evict now groupID memberID = some c') :
    ∃ g g', Evicts c now groupID memberID g g' c' := by
  simp only [evict, Option.bind_eq_bind, Option.bind_eq_some_iff] at h
  obtain ⟨g, hg, m, hm, heq⟩ := h
  cases heq
  have hmem := Map.mem_of_lookup hm
  have hleader := leaderID_removeMember g memberID
  have ⟨hrt, _⟩ := c.runtime.same_stopSessionTimer m
  generalize (c.runtime.stopSessionTimer m).fst = rt at hrt
  unfold maybeRebalance
  split
  case isTrue hnil =>
    have hempty : (g.removeMember memberID).members = ∅ := AList.ext (List.length_eq_zero_iff.mp hnil)
    refine ⟨g, _, hg, hmem, rfl, rfl, rfl, rfl, rfl, .inl rfl, .last hempty rfl rfl rfl hrt.joinTimers, ?_, rfl⟩
    rw [Runtime.Same, setGroup, hrt]
  case isFalse hcons =>
    have hne : (g.removeMember memberID).members ≠ ∅ := fun heq => hcons (by rw [heq]; rfl)
    split
    case isTrue hstate =>
      refine ⟨g, _, hg, hmem, rfl, rfl, rfl, rfl, rfl, hleader,
        .preparing hne rfl hstate.left hstate.right rfl hrt.joinTimers, ?_, rfl⟩
      rw [Runtime.Same, setGroup, hrt]
    case isFalse hstate =>
      have hstate' : g.state = .stable ∨ g.state = .completingRebalance := by
        by_contra hor
        exact hstate (not_or.mp hor)
      refine ⟨g, _, hg, hmem, rfl, rfl, rfl, rfl, rfl, hleader, .rebalances hne rfl hstate' ⟨?_, ?_⟩, ?_, rfl⟩
      · rw [hrt]
        rfl
      · rw [hrt]
        rfl
      · rw [Runtime.Same, hrt]
        rfl

theorem touched_or_evicts (c : Coordinator) (now : Int) (groupID memberID : Bytes) :
    c.Touched (c.expireMember now groupID memberID) ∨
      ∃ g g', Evicts c now groupID memberID g g' (c.expireMember now groupID memberID) := by
  unfold expireMember
  cases h : c.evict now groupID memberID
  case none    => exact .inl (.refl c)
  case some c' => exact .inr (evicts h)

namespace Evicts

-- A group that goes on without preparing a rebalance goes on as it was.
theorem state (h : Evicts c now groupID memberID g g' c') :
    g'.state ≠ .stable ∧ g'.state ≠ .completingRebalance ∧
      (g'.state ≠ .preparingRebalance → g'.members ≠ ∅ → g'.state = g.state) := by
  cases h.goesOn
  case last hempty hstate _ _ _              => simp [hstate, hempty]
  case preparing _ hstate hstable hcompleting _ _ => simp [hstate, hstable, hcompleting]
  case rebalances _ hstate _ _               => simp [hstate]

end Evicts

-- A group moves to its next generation.
structure Completes (c : Coordinator) (groupID : Bytes) (g g' : Group) (leaderMembers : List JoinMember)
    (c' : Coordinator) (delivered : List (JoinCall × JoinResult)) : Prop where
  lookup        : c.groups.lookup groupID = some g
  leader        : ∃ leader ids, g.joinOrder = g'.leaderID :: ids ∧ g.members.lookup g'.leaderID = some leader ∧
    g' = { g with
      leaderID     := g'.leaderID
      protocol     := leader.protocol
      generationID := int32 (g.generationID + 1)
      state        := .completingRebalance
      members      := g'.members }
  members       : g.members.Rel (fun _ => Member.Same) g'.members
  lists         : Group.Lists g.members g.joinOrder leaderMembers
  groups        : c'.groups = c.groups.insert groupID g'
  runtime       : { c.runtime with joins := c'.runtime.joins }.Same c'.runtime
  nextMemberSeq : c'.nextMemberSeq = c.nextMemberSeq
  answers       : ∃ rt rt', rt.joins = c.runtime.joins ∧ c'.runtime.joins = rt'.joins ∧
    g'.answerAll leaderMembers rt g.joinOrder = some (rt', delivered)

theorem completes {delivered : List (JoinCall × JoinResult)} (h : c.completeJoin now groupID = some (c', delivered)) :
    (c' = c ∧ delivered = [] ∧ ∀ g ∈ c.groups.lookup groupID, g.joinOrder = []) ∨
      ∃ g g' leaderMembers, c.Completes groupID g g' leaderMembers c' delivered := by
  unfold completeJoin at h
  split at h
  case h_1 hnone =>
    cases h
    exact .inl ⟨rfl, rfl, by simp [hnone]⟩
  case h_2 g hg =>
    split at h
    case h_1 hnil =>
      cases h
      exact .inl ⟨rfl, rfl, by simpa [hg] using hnil⟩
    case h_2 leaderID ids horder =>
      simp only [Option.bind_eq_bind, Option.bind_eq_some_iff] at h
      have ⟨leader, hleader, ⟨rt, members, leaderMembers⟩, htouch, ⟨rt', delivered'⟩, hanswer, heq⟩ := h
      cases heq
      have ⟨hrt, hmembers, hlist⟩ := Group.touchAll_eq_some htouch
      refine .inr ⟨g, _, leaderMembers, hg, ⟨leader, ids, horder, hleader, rfl⟩, hmembers, hlist, rfl, ?_, rfl, rt, rt',
        hrt.joins, rfl, hanswer⟩
      rw [Runtime.Same, setGroup, Group.answerAll_eq_some hanswer, hrt]

namespace Completes

variable {leaderMembers : List JoinMember} {delivered : List (JoinCall × JoinResult)} {id : Bytes} {m : Member}

theorem generationID (h : c.Completes groupID g g' leaderMembers c' delivered) :
    g'.generationID = int32 (g.generationID + 1) := by
  obtain ⟨_, _, _, _, heq⟩ := h.leader
  rw [heq]

theorem state (h : c.Completes groupID g g' leaderMembers c' delivered) : g'.state = .completingRebalance := by
  obtain ⟨_, _, _, _, heq⟩ := h.leader
  rw [heq]

theorem joinOrder (h : c.Completes groupID g g' leaderMembers c' delivered) : g'.joinOrder = g.joinOrder := by
  obtain ⟨_, _, _, _, heq⟩ := h.leader
  rw [heq]

theorem leader_mem (h : c.Completes groupID g g' leaderMembers c' delivered) : g'.leaderID ∈ g.members := by
  obtain ⟨_, _, _, hleader, _⟩ := h.leader
  exact Map.mem_of_lookup hleader

-- The results go to the channels of the members one by one. `P` is kept by each of them.
theorem fold {P : (Nat → Chan JoinResult JoinCall) → List (JoinCall × JoinResult) → Prop}
    (h : c.Completes groupID g g' leaderMembers c' delivered) (given : List (JoinCall × JoinResult))
    (hP : P c.runtime.joins given)
    (hsend : ∀ joins given, P joins given → ∀ id m, g'.members.lookup id = some m →
      let sent := (joins m.awaitJoin).send (g'.joinResult leaderMembers m)
      P (Function.update joins m.awaitJoin sent.fst)
        (given ++ sent.snd.toList.map (·, g'.joinResult leaderMembers m))) :
    P c'.runtime.joins (given ++ delivered) := by
  obtain ⟨rt, rt', hrt, hjoins, hanswer⟩ := h.answers
  obtain ⟨joins, hP', heq⟩ := Group.answerAll_fold (P := P) hanswer given (hrt ▸ hP)
    fun joins given hP id _ m hm => hsend joins given hP id m hm
  rw [hjoins, heq]
  exact hP'

-- The same for a fact about the channels and one about each of the calls that are answered.
theorem induction {P : (Nat → Chan JoinResult JoinCall) → Prop} {Q : JoinCall → JoinResult → Prop}
    (h : c.Completes groupID g g' leaderMembers c' delivered) (hP : P c.runtime.joins)
    (hsend : ∀ joins, P joins → ∀ id m, g'.members.lookup id = some m →
      let sent := (joins m.awaitJoin).send (g'.joinResult leaderMembers m)
      P (Function.update joins m.awaitJoin sent.fst) ∧ ∀ call ∈ sent.snd, Q call (g'.joinResult leaderMembers m)) :
    P c'.runtime.joins ∧ ∀ r ∈ delivered, Q r.fst r.snd := by
  refine h.fold (P := fun joins given => P joins ∧ ∀ r ∈ given, Q r.fst r.snd) [] ⟨hP, by simp⟩
    fun joins given hP id m hm => ?_
  have ⟨hP', hQ⟩ := hsend joins hP.left id m hm
  refine ⟨hP', List.forall_mem_append.mpr ⟨hP.right, fun r hr => ?_⟩⟩
  have ⟨call, hcall, heq⟩ := List.mem_map.mp hr
  subst heq
  exact hQ call (by simpa using hcall)

theorem unsent {channel : Nat} (h : c.Completes groupID g g' leaderMembers c' delivered)
    (hne : ∀ id m, g'.members.lookup id = some m → m.awaitJoin ≠ channel) :
    c'.runtime.joins channel = c.runtime.joins channel :=
  (h.induction (P := fun joins => joins channel = c.runtime.joins channel) (Q := fun _ _ => True) rfl
    fun _ hP id m hm => ⟨(Function.update_of_ne (hne id m hm).symm ..).trans hP, fun _ _ => trivial⟩).left

-- If the members have channels of their own, one result is sent to each.
theorem sent (h : c.Completes groupID g g' leaderMembers c' delivered) (hnodup : g.joinOrder.Nodup)
    (hinj : ∀ id id' m m', g'.members.lookup id = some m → g'.members.lookup id' = some m' →
      m.awaitJoin = m'.awaitJoin → id = id')
    (hid : id ∈ g.joinOrder) (hm : g'.members.lookup id = some m) :
    let sent := (c.runtime.joins m.awaitJoin).send (g'.joinResult leaderMembers m)
    c'.runtime.joins m.awaitJoin = sent.fst ∧ ∀ call ∈ sent.snd, (call, g'.joinResult leaderMembers m) ∈ delivered := by
  obtain ⟨rt, rt', hrt, hjoins, hanswer⟩ := h.answers
  rw [← hrt, hjoins]
  exact Group.answerAll_sent hanswer hnodup hinj hid hm

end Completes

-- The id of the generation tells whether a group was completed.
theorem int32_succ_ne (x : Int) : int32 (x + 1) ≠ x := by
  simp only [int32, wrap]
  omega

-- A group whose join order has only members is completed without a panic.
theorem exists_completeJoin (h : ∀ g ∈ c.groups.lookup groupID, ∀ id ∈ g.joinOrder, id ∈ g.members) :
    ∃ r, c.completeJoin now groupID = some r := by
  unfold completeJoin
  split
  case h_1 => exact ⟨_, rfl⟩
  case h_2 g hg =>
    split
    case h_1 => exact ⟨_, rfl⟩
    case h_2 leaderID ids horder =>
      have hids := h g hg
      have ⟨leader, hleader⟩ := Option.isSome_iff_exists.mp
        (AList.lookup_isSome.mpr (hids leaderID (horder ▸ List.mem_cons_self)))
      have ⟨⟨rt, members, leaderMembers⟩, htouch⟩ : ∃ r, Group.touchAll g.id now c.runtime g.members g.joinOrder =
        some r := Group.exists_touchAll hids
      have ⟨_, hmembers, _⟩ := Group.touchAll_eq_some htouch
      let g' : Group := { g with
        leaderID
        protocol     := leader.protocol
        generationID := int32 (g.generationID + 1)
        state        := .completingRebalance
        members }
      have ⟨r, hanswer⟩ : ∃ r, g'.answerAll leaderMembers rt g.joinOrder = some r :=
        Group.exists_answerAll fun id hid => hmembers.mem_iff.mpr (hids id hid)
      simp only [g'] at hanswer
      simp [hleader, htouch, hanswer]

end Coordinator
end ConsumerGroup
