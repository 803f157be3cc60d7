import WhisperNet.Demo.Snapshot
import WhisperNet.Lib.Machine

/-!
# The Poller

The thread that polls the nodes. A poll asks the nodes one after the other, and
stores an answer that differs from the last one of the same node. If any did, the
poll ends with a payload of all stored answers, which is handed to whatever the
web UI keeps of them. A browser that connects in between has a payload built from
what is stored at that moment. An exception in the building of a payload ends the
thread, but only the request if it is that of a browser.

What the web UI keeps is a parameter, with what it does with a payload in either
case. For the statements about a whole run the poller also has a record of the
node states at the end of each poll.

## Main definitions

* `sameAnswer`: The comparison of two answers.
* `Poller`: The thread with what it has stored.
* `Poller.step`: An answer, the end of a poll, or a browser.
* `Reached`, `ReportsDone`: What the answers of a poll say.
* `TellsDone`: The first of the newest reports is a completion.

## Theorems

* `Poller.step_answer`, `Poller.step_finish`, `Poller.step_connect`: What an event
  does.
* `tellsDone_iff`: When a payload shows a task completed.
-/

namespace WhisperNet

/-- `a == b` for dictionaries, where the order of the entries does not count. -/
def sameItems {κ α : Type} [DecidableEq κ] [DecidableEq α] (d d' : Dict κ α) : Bool :=
  d.entries.length = d'.entries.length && d.entries.all (fun e => d'.get? e.1 = some e.2)

def Snapshot.same (a b : Snapshot) : Bool :=
  a.ourKey = b.ourKey && sameItems a.peers b.peers && sameItems a.tasks b.tasks &&
    pyEq a.others b.others

/-- `a == b` for the answers of a node. -/
def sameAnswer : Option Snapshot → Option Snapshot → Bool
  | none, none => true
  | some a, some b => a.same b
  | _, _ => false

/-- The thread of the poller, with what the web UI keeps. -/
structure Poller (σ : Type) where
  nodeStates : Dict Nat (Option Snapshot)
  /-- the ports that are still to be asked in this poll -/
  todo : List Nat
  changed : Bool := false
  /-- the thread has ended with an exception -/
  ended : Bool := false
  app : σ
  /-- the node states at the end of each poll so far -/
  polls : List NodeStates := []

/-- `answer` is that of the next port, `none` if the node is not reached; `finish`
    is the rest of a poll after the last one; `connect` is a browser. -/
inductive PollEvent
  | answer (state : Option Snapshot)
  | finish (now : ℚ)
  | connect

namespace Poller

variable {σ : Type}

/-- The poller before its first poll. -/
def start (ports : List Nat) (app : σ) : Poller σ where
  nodeStates := ports.foldl (fun d port => d.set port none) Dict.empty
  todo := (ports.foldl (fun d port => d.set port (none : Option Snapshot)) Dict.empty).keys
  app := app

/-- The stored answers, in the order of the ports. -/
def stored (s : Poller σ) : NodeStates := s.nodeStates.entries

variable (onPoll : ℚ → Payload → σ → σ) (onConnect : Payload → σ → σ)

/-- One event of `_poller` or `on_connect`. -/
def step (s : Poller σ) : PollEvent → Option (Poller σ)
  | .answer state =>
    if s.ended then none
    else match s.todo with
      | [] => none
      | port :: todo =>
        if sameAnswer state (s.nodeStates.get? port).join then some { s with todo := todo }
        else some { s with
          todo := todo
          nodeStates := s.nodeStates.set port state
          changed := true }
  | .finish now =>
    if s.ended ∨ s.todo ≠ [] then none
    else if s.changed then
      match buildPayload s.stored with
      | .error _ => some { s with ended := true, polls := s.polls ++ [s.stored] }
      | .ok p => some { s with
          todo := s.nodeStates.keys
          changed := false
          app := onPoll now p s.app
          polls := s.polls ++ [s.stored] }
    else some { s with todo := s.nodeStates.keys, polls := s.polls ++ [s.stored] }
  | .connect =>
    match buildPayload s.stored with
    | .error _ => some s
    | .ok p => some { s with app := onConnect p s.app }

variable {onPoll onConnect} {s s' : Poller σ}

/-- An answer is that of a port, and is stored unless it is the last one again. -/
theorem step_answer {state : Option Snapshot}
    (h : s.step onPoll onConnect (.answer state) = some s') :
    s'.app = s.app ∧ s'.polls = s.polls ∧
      ((s'.nodeStates = s.nodeStates ∧ s'.changed = s.changed) ∨
        ∃ port, s'.nodeStates = s.nodeStates.set port state ∧ s'.changed = true) := by
  simp only [step] at h
  split at h
  · simp only [reduceCtorEq] at h
  · split at h
    · simp only [reduceCtorEq] at h
    · split at h
      · rw [← Option.some.inj h]
        exact ⟨rfl, rfl, Or.inl ⟨rfl, rfl⟩⟩
      · rw [← Option.some.inj h]
        exact ⟨rfl, rfl, Or.inr ⟨_, rfl, rfl⟩⟩

/-- A poll ends with a payload if something changed and the payload can be built. -/
theorem step_finish {now : ℚ} (h : s.step onPoll onConnect (.finish now) = some s') :
    s'.nodeStates = s.nodeStates ∧ s'.polls = s.polls ++ [s.stored] ∧
      ((s.changed = true ∧ s'.changed = false ∧
          ∃ p, buildPayload s.stored = .ok p ∧ s'.app = onPoll now p s.app) ∨
        (s.changed = true ∧ s'.changed = true ∧ (∀ p, buildPayload s.stored ≠ .ok p) ∧
          s'.app = s.app) ∨
        (s.changed = false ∧ s'.changed = false ∧ s'.app = s.app)) := by
  simp only [step] at h
  split at h
  · simp only [reduceCtorEq] at h
  · split at h
    · rename_i hchanged
      split at h
      · rename_i err hbuild
        rw [← Option.some.inj h]
        refine ⟨rfl, rfl, Or.inr (Or.inl ⟨hchanged, hchanged, fun p hp => ?_, rfl⟩)⟩
        rw [hbuild] at hp
        simp only [reduceCtorEq] at hp
      · rename_i p hbuild
        rw [← Option.some.inj h]
        exact ⟨rfl, rfl, Or.inl ⟨hchanged, rfl, p, hbuild, rfl⟩⟩
    · rename_i hchanged
      rw [← Option.some.inj h]
      have hfalse := eq_false_of_ne_true hchanged
      exact ⟨rfl, rfl, Or.inr (Or.inr ⟨hfalse, hfalse, rfl⟩)⟩

/-- A browser is shown a payload, if one can be built. -/
theorem step_connect (h : s.step onPoll onConnect .connect = some s') :
    s'.nodeStates = s.nodeStates ∧ s'.polls = s.polls ∧ s'.changed = s.changed ∧
      (s'.app = s.app ∨ ∃ p, buildPayload s.stored = .ok p ∧ s'.app = onConnect p s.app) := by
  simp only [step] at h
  split at h
  · rw [← Option.some.inj h]
    exact ⟨rfl, rfl, rfl, Or.inl rfl⟩
  · rename_i p hbuild
    rw [← Option.some.inj h]
    exact ⟨rfl, rfl, rfl, Or.inr ⟨p, hbuild, rfl⟩⟩

end Poller

/-! ## What a poll says -/

/-- A node has answered. -/
def Reached (states : NodeStates) (key : PyStr) : Prop :=
  ∃ e ∈ states, ∃ s, e.2 = some s ∧ s.ourKey = key

/-- A node has reported the task completed. -/
def ReportsDone (states : NodeStates) (tid : PyStr) : Prop :=
  ∃ t ∈ reports tid states, t.status = .completed

/-- No task in progress is without a lease, and the first of the reports with the
    highest version is a completion. -/
structure TellsDone (states : NodeStates) (tid : PyStr) : Prop where
  held : states.any (fun e => e.2.any Snapshot.unheld) = false
  newest : ∃ before t after, reports tid states = before ++ t :: after ∧ t.status = .completed ∧
    (∀ x ∈ before, x.version < t.version) ∧ ∀ x ∈ after, x.version ≤ t.version

theorem mem_reports {states : NodeStates} {tid : PyStr} {t : TaskView} :
    t ∈ reports tid states ↔ ∃ e ∈ states, ∃ s, e.2 = some s ∧ s.tasks.get? tid = some t := by
  unfold reports
  simp only [List.mem_filterMap, Option.bind_eq_some_iff]

/-- This is what it takes for a payload to show the task completed. -/
theorem tellsDone_iff (states : NodeStates) (tid : PyStr) :
    TellsDone states tid ↔
      ∃ p, buildPayload states = .ok p ∧ ∃ t ∈ p.tasks, t.taskId = tid ∧ t.status = .completed := by
  have hshown : ∀ {p : Payload}, buildPayload states = .ok p → ∀ t : TaskView,
      (∃ r ∈ p.tasks, r.taskId = tid ∧ r.toTaskView = t) ↔
        ∃ before after, reports tid states = before ++ t :: after ∧
          (∀ x ∈ before, x.version < t.version) ∧ ∀ x ∈ after, x.version ≤ t.version := by
    intro p hbuild t
    rw [mem_payload_view hbuild]
    exact champion_rank_iff TaskView.version (fun _ _ _ _ => Iff.rfl)
  constructor
  · rintro ⟨hheld, before, t, after, hsplit, hstatus, hbefore, hafter⟩
    rcases (buildPayload_ok_iff states).mpr hheld with ⟨p, hbuild⟩
    rcases (hshown hbuild t).mpr ⟨before, after, hsplit, hbefore, hafter⟩ with ⟨r, hr, hid, hview⟩
    rw [← hview] at hstatus
    exact ⟨p, hbuild, r, hr, hid, hstatus⟩
  · rintro ⟨p, hbuild, r, hr, hid, hstatus⟩
    rcases (hshown hbuild r.toTaskView).mp ⟨r, hr, hid, rfl⟩ with ⟨before, after, hsplit, hmost⟩
    exact ⟨(buildPayload_ok_iff states).mp ⟨p, hbuild⟩, before, _, after, hsplit, hstatus, hmost⟩

end WhisperNet
