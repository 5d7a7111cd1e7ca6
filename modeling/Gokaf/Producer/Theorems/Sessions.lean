import Gokaf.Producer.Sessions
import Gokaf.Producer.Theorems.Sequence
import Mathlib.Data.List.Nodup

open Go

namespace Producer

-- Two managers that agree on the key of a call answer it alike, and agree on the keys that they agreed on before.
theorem Manager.appendCall_congr {m t : Manager} {call : Call} (h : t.seqs call.batch.key = m.seqs call.batch.key)
    (log : List Batch) :
    (t.appendCall call log).snd = (m.appendCall call log).snd ∧
      ∀ key, t.seqs key = m.seqs key → (t.appendCall call log).fst.seqs key = (m.appendCall call log).fst.seqs key := by
  have hcheck := checkSequenceLocked_congr h call.batch.baseSeq
  by_cases hdecision : (m.checkSequenceLocked call.batch.key call.batch.baseSeq).decision = .append
  case neg =>
    simp only [appendCall, appendBatch, hcheck, if_pos hdecision]
    exact ⟨trivial, fun _ hkey => hkey⟩
  case pos =>
    simp only [appendCall, appendBatch, hcheck, if_neg (not_not.mpr hdecision), Call.append]
    cases call.outcome
    case error e => exact ⟨rfl, fun _ hkey => hkey⟩
    case ok offset =>
      refine ⟨rfl, fun key hkey => ?_⟩
      by_cases heq : key = call.batch.key
      case pos => rw [heq, seqs_committedLocked_self, seqs_committedLocked_self]
      case neg => rwa [seqs_committedLocked_of_ne heq, seqs_committedLocked_of_ne heq]

theorem Manager.nextPID_appendCall (m : Manager) (call : Call) (log : List Batch) :
    (m.appendCall call log).fst.nextPID = m.nextPID := by
  have h := appends m call log
  generalize m.appendCall call log = r at h
  have ⟨_, _, _⟩ := r
  cases h <;> rfl

theorem Manager.seqs_appendCall_of_ne {key : SeqKey} {call : Call} (h : key ≠ call.batch.key) (m : Manager)
    (log : List Batch) : (m.appendCall call log).fst.seqs key = m.seqs key :=
  (appends m call log).seqs_eq h

namespace Sessions

variable {s s' t t' : State} {a : Step} {as : List Step} {o os : List Output} {session : Nat} {pid : Int}

def answersTo (session : Nat) (os : List Output) : List (Except IOError Check) :=
  os.filterMap fun
    | .answered session' result => if session' = session then some result else none
    | .initialized .. => none

-- All steps but the batches of other sessions.
def concerns (session : Nat) : Step → Bool
  | .produce session' .. => session' = session
  | .initProducerID _ | .restart _ => true

-- No two sessions have the same id, and each is answered as if the others had sent nothing.
def Apart (as : List Step) (s : State) (os : List Output) : Prop :=
  s.sessions.Nodup ∧ ∀ session, ∃ s' os', machine.run .init (as.filter (concerns session)) = some (s', os') ∧
    answersTo session os' = answersTo session os

-- The broker that is asked for an id has, since it was started, returned all ids so far.
def OneIssuer (s : State) : Step → Prop
  | .initProducerID broker => (s.managers broker).nextPID = s.sessions.length ∧ s.sessions.length + 1 < 2 ^ 63
  | .restart _ | .produce .. => True

instance (s : State) : DecidablePred (OneIssuer s) := fun _ => by
  unfold OneIssuer
  split <;> infer_instance

@[simp]
theorem sessions_produce (s : State) (leader : Int) (call : Call) :
    (s.produce leader call).fst.sessions = s.sessions := by
  unfold State.produce
  split <;> rfl

theorem step_produce {leader partition baseSeq recordCount : Int} {topic : Bytes} {outcome : Except IOError Int}
    (h : machine.step s (.produce session leader topic partition baseSeq recordCount outcome) = some (s', o)) :
    ∃ call pid, s.sessions[session]? = some pid ∧ call.batch.key.pid = pid ∧
      s' = (s.produce leader call).fst ∧ o = [.answered session (s.produce leader call).snd] := by
  have ⟨pid, hpid, heq⟩ := Option.map_eq_some_iff.mp h
  cases heq
  exact ⟨_, pid, hpid, rfl, rfl, rfl⟩

-- The ids are 1, 2, 3 and so on.
def Numbered (s : State) : Prop :=
  ∀ (i : Nat) pid, s.sessions[i]? = some pid → pid = i + 1

theorem Numbered.nodup (h : Numbered s) : s.sessions.Nodup := by
  rw [List.nodup_iff_injective_getElem]
  intro i j heq
  have hi := h i _ (List.getElem?_eq_getElem i.isLt)
  have hj := h j _ (List.getElem?_eq_getElem j.isLt)
  exact Fin.ext (by dsimp only at heq; omega)

theorem Numbered.step (h : Numbered s) (hc : OneIssuer s a) (hs : machine.step s a = some (s', o)) : Numbered s' := by
  cases a
  case initProducerID broker =>
    cases Option.some.inj hs
    have ⟨hnext, hlt⟩ := hc
    intro i pid hi
    simp only [hnext] at hi
    rw [int64, wrap_of_nonneg (by decide) (by omega) (by omega), List.getElem?_append] at hi
    split at hi
    case isTrue => exact h i pid hi
    case isFalse hle =>
      have ⟨hone, heq⟩ := List.getElem?_eq_some_iff.mp hi
      simp only [List.length_singleton, List.getElem_singleton] at hone heq
      omega
  case restart broker =>
    cases Option.some.inj hs
    exact h
  case produce =>
    have ⟨_, _, _, _, heq, _⟩ := step_produce hs
    rw [heq]
    unfold Numbered
    rwa [sessions_produce]

-- `t` has seen the same as `s` but for the batches of other sessions than the given one.
structure Reduced (session : Nat) (s t : State) : Prop where
  sessions : t.sessions = s.sessions
  nextPID  : ∀ broker, (t.managers broker).nextPID = (s.managers broker).nextPID
  seqs     : ∀ broker key, (∀ i, i ≠ session → s.sessions[i]? ≠ some key.pid) →
    (t.managers broker).seqs key = (s.managers broker).seqs key

theorem Reduced.refl (session : Nat) (s : State) : Reduced session s s :=
  ⟨rfl, fun _ => rfl, fun _ _ _ => rfl⟩

theorem Reduced.initProducerID (h : Reduced session s t) (broker : Int) :
    Reduced session (s.initProducerID broker).fst (t.initProducerID broker).fst ∧
      (t.initProducerID broker).snd = (s.initProducerID broker).snd := by
  have hpid : (t.initProducerID broker).snd = (s.initProducerID broker).snd := by
    simp only [State.initProducerID, Manager.initProducerID, h.nextPID]
  refine ⟨⟨?_, fun broker' => ?_, fun broker' key hkey => ?_⟩, hpid⟩
  · exact congrArg₂ (· ++ [·]) h.sessions hpid
  · by_cases heq : broker' = broker
    case pos => simpa [State.initProducerID, Manager.initProducerID, heq] using hpid
    case neg => simpa [State.initProducerID, heq] using h.nextPID broker'
  · have hseqs := h.seqs broker' key fun i hi heq =>
      hkey i hi (List.getElem?_append_left (List.getElem?_eq_some_iff.mp heq).fst ▸ heq)
    by_cases heq : broker' = broker
    case pos =>
      subst heq
      simpa [State.initProducerID, Manager.initProducerID] using hseqs
    case neg => simpa [State.initProducerID, heq] using hseqs

theorem Reduced.restart (h : Reduced session s t) (broker : Int) :
    Reduced session (s.restart broker) (t.restart broker) := by
  refine ⟨h.sessions, fun broker' => ?_, fun broker' key hkey => ?_⟩
  · by_cases heq : broker' = broker
    case pos => simp [State.restart, heq]
    case neg => simpa [State.restart, heq] using h.nextPID broker'
  · by_cases heq : broker' = broker
    case pos => simp [State.restart, heq]
    case neg => simpa [State.restart, heq] using h.seqs broker' key hkey

-- A batch of another session changes only what is not compared.
theorem Reduced.produce_left {i : Nat} {call : Call} (h : Reduced session s t) (hi : i ≠ session)
    (hcall : s.sessions[i]? = some call.batch.key.pid) (leader : Int) :
    Reduced session (s.produce leader call).fst t := by
  unfold State.produce
  split
  case isFalse => exact h
  case isTrue =>
    refine ⟨h.sessions, fun broker => ?_, fun broker key hkey => ?_⟩
    · by_cases heq : broker = leader
      case pos => simpa [heq, Manager.nextPID_appendCall] using h.nextPID leader
      case neg => simpa [heq] using h.nextPID broker
    · by_cases heq : broker = leader
      case pos =>
        have hne : key ≠ call.batch.key := fun heq => hkey i hi (heq ▸ hcall)
        simpa [heq, Manager.seqs_appendCall_of_ne hne] using h.seqs leader key hkey
      case neg => simpa [heq] using h.seqs broker key hkey

theorem Reduced.produce (h : Reduced session s t) (call : Call)
    (hcall : ∀ i, i ≠ session → s.sessions[i]? ≠ some call.batch.key.pid) (leader : Int) :
    Reduced session (s.produce leader call).fst (t.produce leader call).fst ∧
      (t.produce leader call).snd = (s.produce leader call).snd := by
  unfold State.produce
  split
  case isFalse => exact ⟨h, rfl⟩
  case isTrue =>
    have ⟨hresult, hseqs⟩ := Manager.appendCall_congr (h.seqs leader call.batch.key hcall) []
    refine ⟨⟨h.sessions, fun broker => ?_, fun broker key hkey => ?_⟩, congrArg (·.snd) hresult⟩
    · by_cases heq : broker = leader
      case pos => simpa [heq, Manager.nextPID_appendCall] using h.nextPID leader
      case neg => simpa [heq] using h.nextPID broker
    · by_cases heq : broker = leader
      case pos => simpa [heq] using hseqs key (h.seqs leader key hkey)
      case neg => simpa [heq] using h.seqs broker key hkey

theorem answersTo_append (session : Nat) (os os' : List Output) :
    answersTo session (os ++ os') = answersTo session os ++ answersTo session os' :=
  List.filterMap_append ..

-- What one step does without the batches of other sessions: the same, or it is left out.
theorem Reduced.step (h : Reduced session s t) (hn : Numbered s) (hs : machine.step s a = some (s', o)) :
    if concerns session a then
      ∃ t' o', machine.step t a = some (t', o') ∧ Reduced session s' t' ∧ answersTo session o' = answersTo session o
    else
      Reduced session s' t ∧ answersTo session o = [] := by
  cases a
  case initProducerID broker =>
    cases Option.some.inj hs
    exact ⟨_, _, rfl, (h.initProducerID broker).left, rfl⟩
  case restart broker =>
    cases Option.some.inj hs
    exact ⟨_, _, rfl, h.restart broker, rfl⟩
  case produce session' leader topic partition baseSeq recordCount outcome =>
    have ⟨pid, hpid, heq⟩ := Option.map_eq_some_iff.mp hs
    cases heq
    by_cases hsession : session' = session
    case neg =>
      rw [if_neg (by simpa [concerns] using hsession)]
      exact ⟨h.produce_left hsession hpid leader, by simp [answersTo, hsession]⟩
    case pos =>
      subst hsession
      rw [if_pos (by simp [concerns])]
      have hother : ∀ i, i ≠ session' → s.sessions[i]? ≠ some pid := by
        intro i hi hpid'
        have := hn i pid hpid'
        have := hn session' pid hpid
        omega
      have ⟨hreduced, hresult⟩ := h.produce ⟨⟨⟨pid, topic, partition⟩, baseSeq, recordCount⟩, outcome⟩ hother leader
      refine ⟨_, _, ?_, hreduced, congrArg (fun r => answersTo session' [.answered session' r]) hresult⟩
      simp only [machine, h.sessions, hpid, Option.map_some]

theorem Reduced.run (h : Reduced session s t) (hn : Numbered s) (hc : machine.Along OneIssuer s as)
    (hr : machine.run s as = some (s', os)) :
    ∃ t' os', machine.run t (as.filter (concerns session)) = some (t', os') ∧
      answersTo session os' = answersTo session os := by
  induction as generalizing s t os
  case nil =>
    cases hr
    exact ⟨t, [], rfl, rfl⟩
  case cons a as hi =>
    have ⟨s₁, o, os₁, hs, hr, heq⟩ := Machine.run_cons_eq_some.mp hr
    have hstep := h.step hn hs
    have hn := hn.step hc.left hs
    have hc := hc.right _ _ hs
    rw [heq, answersTo_append]
    split at hstep
    case isTrue hconcerns =>
      have ⟨t₁, o', ht, hreduced, ho⟩ := hstep
      have ⟨t', os', hr', hos⟩ := hi hreduced hn hc hr
      rw [List.filter_cons_of_pos hconcerns]
      exact ⟨t', o' ++ os', Machine.run_cons_eq_some.mpr ⟨t₁, o', os', ht, hr', rfl⟩,
        by rw [answersTo_append, ho, hos]⟩
    case isFalse hconcerns =>
      have ⟨hreduced, ho⟩ := hstep
      rw [List.filter_cons_of_neg hconcerns, ho, List.nil_append]
      exact hi hreduced hn hc hr

theorem inductive_numbered : machine.Inductive OneIssuer fun s _ => Numbered s where
  step h hc hs := h.step hc hs

theorem numbered_init : Numbered .init := by
  simp [Numbered, State.init]

-- Sessions whose ids come from one broker that is not started afresh in between do not interfere.
theorem apart_of_oneIssuer (hc : machine.Along OneIssuer .init as) (hr : machine.run .init as = some (s, os)) :
    Apart as s os :=
  ⟨(inductive_numbered.run_nil numbered_init hc hr).nodup, fun session =>
    (Reduced.refl session .init).run numbered_init hc hr⟩

theorem apart_of_oneIssuer_pair :
    let as : List Step := [.initProducerID 1, .initProducerID 1, .produce 0 2 [116] 0 0 3 (.ok 0),
      .produce 1 2 [116] 0 0 2 (.ok 1), .restart 2]
    ∃ s os, machine.run .init as = some (s, os) ∧ Apart as s os := by
  intro as
  have hrun : (machine.run .init as).isSome := by decide +kernel
  have ⟨⟨s, os⟩, hs⟩ := Option.isSome_iff_exists.mp hrun
  exact ⟨s, os, hs, apart_of_oneIssuer (by decide +kernel) hs⟩

-- Two brokers return the same id, and the second session's first batch is taken for one of the first.
theorem twoIssuers_not_apart :
    let as : List Step := [.initProducerID 1, .initProducerID 2, .produce 0 3 [116] 0 0 3 (.ok 0),
      .produce 1 3 [116] 0 0 2 (.ok 1)]
    ∃ s os, machine.run .init as = some (s, os) ∧ s.sessions = [1, 1] ∧
      answersTo 1 os = [.ok ⟨.duplicate, 0⟩] ∧ ¬Apart as s os := by
  intro as
  have hrun : (machine.run .init as).map (fun (s, os) => (s.sessions, answersTo 1 os)) =
      some ([1, 1], [.ok ⟨.duplicate, 0⟩]) := by decide +kernel
  have ⟨⟨s, os⟩, hs, heq⟩ := Option.map_eq_some_iff.mp hrun
  have ⟨hsessions, hanswers⟩ := Prod.mk.inj heq
  refine ⟨s, os, hs, hsessions, hanswers, fun h => ?_⟩
  have hnodup := h.left
  rw [hsessions] at hnodup
  simp at hnodup

end Sessions
end Producer
