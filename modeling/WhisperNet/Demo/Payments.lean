import WhisperNet.Demo.Economy

/-!
# Payments

A task is owed its credit once a poll has reported it completed and its executor
has answered in the same poll or since. A task whose executor has answered
whenever the web UI first sees the completion, and whose completion the payload
shows whenever the executor answers, is paid exactly once.

Both can fail. The executor may be the one that does not answer when the
completion is first seen, and then the task is marked and not paid, neither then
nor later. And a stale record may hide the completion in the payload.

## Main definitions

* `Owed`: A completion that was reported, and the executor polled since.
* `Paid`: What is owed was credited once.
* `Opportune`: An evaluation pays whom it owes.
* `Solvent`: What every event keeps.

## Theorems

* `step_solvent`: One event.
* `paid_once`: Every run.
* `never_paid`: A mark without a payee is for good.
* `hidden_unpaid`: A completion that is not shown is not paid.
-/

namespace WhisperNet

/-! ## What is owed -/

def PollEvent.Names (exec : PyStr → PyStr) : PollEvent → Prop
  | .answer (some s) => s.Names exec
  | _ => True

/-- A completion was reported, and in the same poll or a later one the executor has
    answered. -/
def Owed (polls : List NodeStates) (tid key : PyStr) : Prop :=
  ∃ before r after, polls = before ++ r :: after ∧ Reached r key ∧
    ∃ r' ∈ before ++ [r], ReportsDone r' tid

/-- Every task that is owed was credited once, to its executor, and the balances are
    what was credited. -/
structure Paid (exec : PyStr → PyStr) (s : Poller Economy) : Prop where
  once : ∀ tid, Owed s.polls tid (exec tid) → s.app.creditsOf tid = [exec tid]
  balance : s.app.Balanced

/-! ## Runs -/

/-- The stored answers, or those of an earlier poll, report the task completed. -/
def ReportedSoFar (s : Poller Economy) (tid : PyStr) : Prop :=
  ∃ r ∈ s.polls ++ [s.stored], ReportsDone r tid

/-- The executor of a task that the answers newly tell completed has answered. -/
def Findable (exec : PyStr → PyStr) (s : Poller Economy) : Prop :=
  ∀ tid, TellsDone s.stored tid → tid ∉ s.app.creditedTasks → Reached s.stored (exec tid)

/-- The answers tell a completion that was reported when its executor has answered,
    if they did not before. -/
def Visible (exec : PyStr → PyStr) (s : Poller Economy) : Prop :=
  ∀ tid, ReportedSoFar s tid → Reached s.stored (exec tid) → tid ∉ s.app.creditedTasks →
    TellsDone s.stored tid

/-- An evaluation pays whom it owes. -/
def Opportune (exec : PyStr → PyStr) (s : Poller Economy) : PollEvent → Prop
  | .answer _ => True
  | .finish _ => s.changed = true → Findable exec s ∧ Visible exec s
  | .connect => Findable exec s

/-- What every event keeps: the economy pays what it marks, and what is owed is
    marked at the end of a poll, and stays so until an answer changes something. -/
structure Solvent (exec : PyStr → PyStr) (s : Poller Economy) : Prop where
  names : ∀ e ∈ s.stored, ∀ snap, e.2 = some snap → snap.Names exec
  kept : s.app.Kept exec
  balanced : s.app.Balanced
  quiet : s.changed = false → ∀ tid, ReportedSoFar s tid → Reached s.stored (exec tid) →
    tid ∈ s.app.creditedTasks
  owed : ∀ tid, Owed s.polls tid (exec tid) → tid ∈ s.app.creditedTasks

theorem owed_snoc {polls : List NodeStates} {r : NodeStates} {tid key : PyStr} :
    Owed (polls ++ [r]) tid key ↔ Owed polls tid key ∨
      (Reached r key ∧ ∃ r' ∈ polls ++ [r], ReportsDone r' tid) := by
  constructor
  · rintro ⟨before, r', after, hsplit, hreached, hdone⟩
    -- The poll in which the executor answered is the last one, or an earlier one.
    cases after using List.reverseRecOn with
    | nil =>
        rcases List.append_inj' hsplit rfl with ⟨hbefore, hr⟩
        rw [hbefore]
        injection hr with hr _
        rw [hr]
        exact Or.inr ⟨hreached, hdone⟩
    | append_singleton after x =>
        rw [← List.cons_append, ← List.append_assoc] at hsplit
        exact Or.inl ⟨before, r', after, (List.append_inj' hsplit rfl).1, hreached, hdone⟩
  · rintro (⟨before, r', after, hsplit, hreached, hdone⟩ | ⟨hreached, hdone⟩)
    · refine ⟨before, r', after ++ [r], ?_, hreached, hdone⟩
      rw [hsplit, List.append_assoc, List.cons_append]
    · exact ⟨polls, r, [], rfl, hreached, hdone⟩

section Steps

variable {exec : PyStr → PyStr} {s s' : Poller Economy}

/-- A payload whose executors have answered pays what it marks. -/
theorem payload_kept {p : Payload} (hkeys : ∀ tid, IsKey (exec tid)) (h : Solvent exec s)
    (hbuild : buildPayload s.stored = .ok p) (hfind : Findable exec s) :
    (updateEconomy p s.app).Kept exec := by
  refine updateEconomy_kept h.kept (fun tid => (hkeys tid).1) (fun t ht hstatus hnew => ?_)
  have htells := (tellsDone_iff _ _).mpr ⟨p, hbuild, t, ht, rfl, hstatus⟩
  exact ⟨payload_executor hbuild h.names ht hstatus,
    payee_of_reached hbuild (hkeys _) h.names (hfind _ htells hnew)⟩

theorem marked_of_update (p : Payload) {tid : PyStr} (h : tid ∈ s.app.creditedTasks) :
    tid ∈ (updateEconomy p s.app).creditedTasks := (updateEconomy_marks p s.app tid).mpr (Or.inl h)

/-- An answer, whether it is stored or not. -/
theorem answer_solvent (h : Solvent exec s) {state : Option Snapshot}
    (hnames : (PollEvent.answer state).Names exec)
    (hstep : economyStep s (.answer state) = some s') : Solvent exec s' := by
  rcases Poller.step_answer hstep with ⟨happ, hpolls, ⟨hsame, hchanged⟩ | ⟨port, hset, hchanged⟩⟩
  · -- An answer that is the last one again.
    have hstored : s'.stored = s.stored := congrArg Dict.entries hsame
    constructor
    · rw [hstored]
      exact h.names
    · rw [happ]
      exact h.kept
    · rw [happ]
      exact h.balanced
    · unfold ReportedSoFar
      rw [hchanged, hpolls, hstored, happ]
      exact h.quiet
    · rw [hpolls, happ]
      exact h.owed
  · constructor
    · -- The entries are the old ones and the answer.
      intro e he snap hsnap
      unfold Poller.stored at he
      rw [hset] at he
      have hget := (Dict.mem_entries_iff (s.nodeStates.set port state) e.1 e.2).mp he
      rw [Dict.get?_set] at hget
      split at hget
      · rw [← Option.some.inj hget] at hsnap
        rw [hsnap] at hnames
        exact hnames
      · exact h.names e ((Dict.mem_entries_iff ..).mpr hget) snap hsnap
    · rw [happ]
      exact h.kept
    · rw [happ]
      exact h.balanced
    · intro hc
      rw [hchanged] at hc
      exact absurd hc (by simp only [Bool.true_eq_false, not_false_eq_true])
    · rw [hpolls, happ]
      exact h.owed

/-- The end of a poll: what is owed from now on is marked by now. -/
theorem finish_solvent (hkeys : ∀ tid, IsKey (exec tid)) (h : Solvent exec s) {now : ℚ}
    (hok : s.changed = true → Findable exec s ∧ Visible exec s)
    (hstep : economyStep s (.finish now) = some s') : Solvent exec s' := by
  rcases Poller.step_finish hstep with ⟨hsame, hpolls, hcase⟩
  have hstored : s'.stored = s.stored := congrArg Dict.entries hsame
  -- In all three cases what was heard of a reachable executor is marked.
  have heffect : s'.app.Kept exec ∧ s'.app.Balanced ∧
      (∀ tid ∈ s.app.creditedTasks, tid ∈ s'.app.creditedTasks) ∧
      ∀ tid, ReportedSoFar s tid → Reached s.stored (exec tid) → tid ∈ s'.app.creditedTasks := by
    rcases hcase with ⟨hchanged, _, p, hbuild, happ⟩ | ⟨hchanged, _, hnone, happ⟩ |
      ⟨hchanged, _, happ⟩
    · rcases hok hchanged with ⟨hfind, hvisible⟩
      rw [happ]
      refine ⟨payload_kept hkeys h hbuild hfind, updateEconomy_balanced p h.balanced,
        fun tid => marked_of_update p, fun tid hheard hreached => ?_⟩
      by_cases hold : tid ∈ s.app.creditedTasks
      · exact marked_of_update p hold
      · rcases (tellsDone_iff _ _).mp (hvisible tid hheard hreached hold) with
          ⟨p', hbuild', t, ht, hid, hstatus⟩
        rw [hbuild, Except.ok.injEq] at hbuild'
        rw [← hbuild'] at ht
        exact (updateEconomy_marks p s.app tid).mpr (Or.inr ⟨t, ht, hid, hstatus⟩)
    · -- No payload, so nothing was left to be shown.
      rw [happ]
      refine ⟨h.kept, h.balanced, fun _ => id, fun tid hheard hreached => ?_⟩
      by_contra hold
      rcases (tellsDone_iff _ _).mp ((hok hchanged).2 tid hheard hreached hold) with ⟨p, hbuild, _⟩
      exact hnone p hbuild
    · rw [happ]
      exact ⟨h.kept, h.balanced, fun _ => id, h.quiet hchanged⟩
  rcases heffect with ⟨hkept, hbalanced, hmarked, hseen⟩
  refine ⟨hstored ▸ h.names, hkept, hbalanced, fun _ tid hheard hreached => ?_, fun tid howed => ?_⟩
  · rw [hstored] at hreached
    refine hseen tid ?_ hreached
    rcases hheard with ⟨r, hr, hdone⟩
    rw [hpolls, hstored, List.append_assoc, List.mem_append] at hr
    refine ⟨r, List.mem_append.mpr (hr.imp_right (fun hr => ?_)), hdone⟩
    rcases List.mem_append.mp hr with hr | hr
    · exact hr
    · exact hr
  · rw [hpolls, owed_snoc] at howed
    rcases howed with howed | ⟨hreached, hheard⟩
    · exact hmarked tid (h.owed tid howed)
    · exact hseen tid hheard hreached

/-- A browser is shown a payload in the middle of a poll. -/
theorem connect_solvent (hkeys : ∀ tid, IsKey (exec tid)) (h : Solvent exec s)
    (hok : Findable exec s) (hstep : economyStep s .connect = some s') : Solvent exec s' := by
  rcases Poller.step_connect hstep with ⟨hsame, hpolls, hchanged, hcase⟩
  have hstored : s'.stored = s.stored := congrArg Dict.entries hsame
  have heffect : s'.app.Kept exec ∧ s'.app.Balanced ∧
      ∀ tid ∈ s.app.creditedTasks, tid ∈ s'.app.creditedTasks := by
    rcases hcase with happ | ⟨p, hbuild, happ⟩
    · rw [happ]
      exact ⟨h.kept, h.balanced, fun _ => id⟩
    · rw [happ]
      exact ⟨payload_kept hkeys h hbuild hok, updateEconomy_balanced p h.balanced,
        fun tid => marked_of_update p⟩
  rcases heffect with ⟨hkept, hbalanced, hmarked⟩
  refine ⟨hstored ▸ h.names, hkept, hbalanced, fun hc tid hheard hreached => ?_,
    fun tid howed => ?_⟩
  · unfold ReportedSoFar at hheard
    rw [hpolls, hstored] at hheard
    rw [hstored] at hreached
    exact hmarked tid (h.quiet (hchanged ▸ hc) tid hheard hreached)
  · rw [hpolls] at howed
    exact hmarked tid (h.owed tid howed)

theorem step_solvent (hkeys : ∀ tid, IsKey (exec tid)) (h : Solvent exec s) {e : PollEvent}
    (hnames : e.Names exec) (hok : Opportune exec s e) (hstep : economyStep s e = some s') :
    Solvent exec s' := by
  cases e with
  | answer state => exact answer_solvent h hnames hstep
  | finish now => exact finish_solvent hkeys h hok hstep
  | connect => exact connect_solvent hkeys h hok hstep

theorem paid_of_solvent (h : Solvent exec s) : Paid exec s where
  once := fun tid howed => h.kept.paid tid (h.owed tid howed)
  balance := h.balanced

end Steps

/-! ## What is not paid -/

section Unpaid

variable {exec : PyStr → PyStr} {s s' t : Poller Economy} {tid : PyStr}

/-- What the economy becomes in an event. -/
theorem step_app {e : PollEvent} (hstep : economyStep s e = some s') :
    s'.app = s.app ∨ ∃ p, buildPayload s.stored = .ok p ∧ s'.app = updateEconomy p s.app := by
  cases e with
  | answer state => exact Or.inl (Poller.step_answer hstep).1
  | finish now =>
      rcases (Poller.step_finish hstep).2.2 with ⟨_, _, h⟩ | ⟨_, _, _, happ⟩ | ⟨_, _, happ⟩
      · exact Or.inr h
      · exact Or.inl happ
      · exact Or.inl happ
  | connect => exact (Poller.step_connect hstep).2.2.2

/-- A task that is marked has all the credits it will ever have. -/
theorem credits_of_marked {es : List PollEvent} (hmarked : tid ∈ s.app.creditedTasks)
    (hrun : Machine.run economyStep s es = some t) :
    t.app.creditsOf tid = s.app.creditsOf tid := by
  refine (Machine.invariant_run economyStep
    (fun u => tid ∈ u.app.creditedTasks ∧ u.app.creditsOf tid = s.app.creditsOf tid)
    (fun _ _ => True) (fun u e u' h _ hstep => ?_) ⟨hmarked, rfl⟩
    (Machine.along_of_forall _ _ _ _ (fun _ _ _ => trivial)) hrun).2
  rcases step_app hstep with happ | ⟨p, _, happ⟩
  · rw [happ]
    exact h
  · rw [happ]
    refine ⟨marked_of_update p h.1, (updateEconomy_frame (fun _ _ _ _ hnew => ?_)).trans h.2⟩
    exact absurd h.1 hnew

/-- A payload that newly shows a completion whose executor has not answered leaves
    the task unpaid for good: nothing that follows pays the executor, once it is
    polled. -/
theorem never_paid {p : Payload} (hkeys : ∀ tid, IsKey (exec tid)) (h : Solvent exec s)
    (hbuild : buildPayload s.stored = .ok p) (happ : s'.app = updateEconomy p s.app)
    (hnot : ¬ Findable exec s) :
    ∃ tid, ∀ es t, Machine.run economyStep s' es = some t →
      t.app.creditsOf tid = [] ∧ (Owed t.polls tid (exec tid) → ¬ Paid exec t) := by
  unfold Findable at hnot
  push Not at hnot
  rcases hnot with ⟨tid, htells, hnew, hunreached⟩
  rcases (tellsDone_iff _ _).mp htells with ⟨p', hbuild', r, hr, hid, hstatus⟩
  rw [hbuild, Except.ok.injEq] at hbuild'
  rw [← hbuild'] at hr
  -- The executor is not in the list, so the task is only marked.
  have hnone : p.nodes.find? (fun n => n.tag = (exec tid).take 8) = none := by
    cases hfind : p.nodes.find? (fun n => n.tag = (exec tid).take 8) with
    | none => rfl
    | some n =>
        exact absurd (found_executor hbuild (hkeys _) h.names hfind).2 hunreached
  have hcredits : s'.app.creditsOf tid = [] := by
    rw [happ, updateEconomy_frame (fun t ht hsame hdone _ => ?_)]
    · exact h.kept.unpaid _ hnew
    · have hlease := payload_executor hbuild h.names ht hdone
      rw [hsame] at hlease
      exact ⟨_, hlease, hnone⟩
  have hmarked : tid ∈ s'.app.creditedTasks := by
    rw [happ]
    exact (updateEconomy_marks p s.app _).mpr (Or.inr ⟨r, hr, hid, hstatus⟩)
  refine ⟨tid, fun es t hrun => ?_⟩
  have hlater := (credits_of_marked hmarked hrun).trans hcredits
  refine ⟨hlater, fun howed hpaid => ?_⟩
  rw [hpaid.once _ howed] at hlater
  exact absurd hlater (List.cons_ne_nil _ _)

/-- A poll that ends with a completion hidden leaves what it owes unpaid. -/
theorem hidden_unpaid (h : Solvent exec s) {now : ℚ}
    (hstep : economyStep s (.finish now) = some s') (hnot : ¬ Visible exec s) : ¬ Paid exec s' := by
  intro hpaid
  unfold Visible at hnot
  push Not at hnot
  rcases hnot with ⟨tid, hreported, hreached, hnew, hnottold⟩
  rw [tellsDone_iff] at hnottold
  have hhidden : ∀ p, buildPayload s.stored = .ok p → ∀ t ∈ p.tasks, t.taskId = tid →
      t.status ≠ .completed := by
    intro p hbuild t ht hid hdone
    exact hnottold ⟨p, hbuild, t, ht, hid, hdone⟩
  have howed : Owed s'.polls tid (exec tid) := by
    rw [(Poller.step_finish hstep).2.1, owed_snoc]
    exact Or.inr ⟨hreached, hreported⟩
  -- The payload does not show the task completed, so it is not even marked.
  have hcredits : s'.app.creditsOf tid = [] := by
    rcases step_app hstep with happ | ⟨p, hbuild, happ⟩
    · rw [happ]
      exact h.kept.unpaid tid hnew
    · rw [happ, updateEconomy_frame
          (fun t ht hid hdone _ => absurd hdone (hhidden p hbuild t ht hid))]
      exact h.kept.unpaid tid hnew
  rw [hpaid.once tid howed] at hcredits
  exact absurd hcredits (List.cons_ne_nil _ _)

end Unpaid

/-! ## Every run -/

/-- Before the first poll no node has answered. -/
theorem start_unreached (ports : List Nat) :
    ∀ e ∈ (Poller.start ports ({} : Economy)).stored, e.2 = none := by
  have hfold : ∀ d : Dict Nat (Option Snapshot), (∀ e ∈ d.entries, e.2 = none) →
      ∀ e ∈ (ports.foldl (fun d port => d.set port none) d).entries, e.2 = none := by
    induction ports with
    | nil => exact fun _ hd => hd
    | cons port ports ih =>
        intro d hd
        refine ih _ (fun e he => ?_)
        have hget := (Dict.mem_entries_iff (d.set port none) e.1 e.2).mp he
        rw [Dict.get?_set] at hget
        split at hget
        · exact (Option.some.inj hget).symm
        · exact hd e ((Dict.mem_entries_iff ..).mpr hget)
  exact hfold Dict.empty (fun e he => absurd he List.not_mem_nil)

theorem start_solvent (exec : PyStr → PyStr) (ports : List Nat) :
    Solvent exec (Poller.start ports {}) := by
  have hnone := start_unreached ports
  constructor
  · intro e he snap hsnap
    rw [hnone e he] at hsnap
    simp only [reduceCtorEq] at hsnap
  · exact ⟨fun tid hmem => absurd hmem (Finset.notMem_empty tid), fun _ _ => rfl⟩
  · intro key
    simp only [Poller.start, Dict.empty, Dict.get?, lookup, Option.getD_none, List.filter_nil,
      List.length_nil, Nat.cast_zero, zero_mul]
  · rintro _ tid _ ⟨e, he, snap, hsnap, _⟩
    rw [hnone e he] at hsnap
    simp only [reduceCtorEq] at hsnap
  · rintro tid ⟨before, r, after, hsplit, _⟩
    exact absurd hsplit.symm (List.append_ne_nil_of_right_ne_nil _ (List.cons_ne_nil r after))

/-- In every run whose evaluations all pay whom they owe, a task that is owed was
    credited exactly once, to its executor. -/
theorem paid_once (exec : PyStr → PyStr) (hkeys : ∀ tid, IsKey (exec tid)) (ports : List Nat)
    (es : List PollEvent) (hnames : ∀ e ∈ es, e.Names exec)
    (hok : Machine.Along economyStep (Opportune exec) (Poller.start ports {}) es) :
    Machine.Throughout economyStep (Paid exec) (Poller.start ports {}) es := by
  refine (Machine.throughout_of_along economyStep (Solvent exec)
    (fun s e => e.Names exec ∧ Opportune exec s e)
    (fun s e s' h hboth hstep => step_solvent hkeys h hboth.1 hboth.2 hstep) _ es
    (start_solvent exec ports) ?_).mono (fun s => paid_of_solvent)
  exact Machine.along_and (Machine.along_of_forall _ _ _ _ (fun e he _ => hnames e he)) hok

/-! ## An executor that comes back -/

namespace Returning

def key : PyStr := lit "bbbbbbbb1"

def exec (_ : PyStr) : PyStr := key

def done : TaskView :=
  { taskId := lit "t", shardId := 1, status := .completed, leasedBy := some (lit "bbbbbbbb"),
    result := some (lit "r"), version := 2 }

/-- Another node, which has heard of the completion. -/
def other : Snapshot := .ofTask (lit "aaaaaaaa1") done

def executor : Snapshot := .ofTask key done

/-- In the first poll the executor does not answer. -/
def run : List PollEvent :=
  [.answer (some other), .answer none, .finish 0,
    .answer (some other), .answer (some executor), .finish 2]

theorem isKey (tid : PyStr) : IsKey (exec tid) := by
  have hkey : IsKey key := ⟨by decide, by decide⟩
  exact hkey

theorem names {ourKey : PyStr} {t : TaskView} (ht : t.leasedBy = some (key.take 8))
    (h : ourKey.take 8 = key.take 8 → ourKey = key) : (Snapshot.ofTask ourKey t).Names exec where
  executor := by
    intro tid u hu _
    rw [(Snapshot.get?_ofTask hu).1, ht]
    rfl
  prefixes := fun _ => h

/-- The executor answers in the second poll, and is not paid. -/
theorem missed : (∀ tid, IsKey (exec tid)) ∧ (∀ e ∈ run, e.Names exec) ∧
    ¬ Machine.Throughout economyStep (Paid exec) (Poller.start [8888, 8889] {}) run := by
  refine ⟨isKey, ?_, fun h => ?_⟩
  · have hother : other.Names exec := names rfl (by decide)
    have hexecutor : executor.Names exec := names rfl (by decide)
    unfold run
    simp only [List.forall_mem_cons, List.not_mem_nil, false_implies, implies_true, and_true]
    exact ⟨hother, trivial, trivial, hother, hexecutor, trivial⟩
  · have hend : ∃ s, Machine.run economyStep (Poller.start [8888, 8889] {}) run = some s ∧
        s.app.creditsOf (lit "t") = [] ∧
        s.polls = [[(8888, some other), (8889, none)],
                   [(8888, some other), (8889, some executor)]] :=
      ⟨_, rfl, rfl, rfl⟩
    rcases hend with ⟨s, hrun, hcredits, hpolls⟩
    -- The second poll sees the executor, but the task was done before it.
    have howed : Owed s.polls (lit "t") key := by
      rw [hpolls]
      refine ⟨[[(8888, some other), (8889, none)]], _, [], rfl, ?_, ?_⟩
      · exact ⟨_, List.mem_cons_of_mem _ (List.mem_cons_self ..), executor, rfl, rfl⟩
      · exact ⟨_, List.mem_cons_self .., done, List.mem_cons_self .., rfl⟩
    have hpaid := (h.last hrun).once (lit "t") howed
    rw [hcredits] at hpaid
    exact absurd hpaid.symm (List.cons_ne_nil _ _)

/-- The task before its completion. -/
def held : TaskView :=
  { taskId := lit "t", shardId := 1, status := .inProgress, leasedBy := some (lit "bbbbbbbb"),
    result := none, version := 1 }

/-- What both nodes have of the task. -/
def bothSay (t : TaskView) : NodeStates :=
  [(8888, some (.ofTask (lit "aaaaaaaa1") t)), (8889, some (.ofTask key t))]

/-- Two polls that both nodes answer, with the completion in the second one. -/
def prompt : List PollEvent :=
  (bothSay held).map (fun e => .answer e.2) ++ .finish 0 ::
    (bothSay done).map (fun e => .answer e.2) ++ [.finish 2]

theorem reports_bothSay {t u : TaskView} {tid : PyStr} (h : u ∈ reports tid (bothSay t)) :
    u = t ∧ tid = t.taskId := by
  rcases mem_reports.mp h with ⟨e, he, snap, hsnap, hget⟩
  rcases List.mem_cons.mp he with rfl | he
  · rw [← Option.some.inj hsnap] at hget
    exact Snapshot.get?_ofTask hget
  · rw [List.mem_singleton.mp he] at hsnap
    rw [← Option.some.inj hsnap] at hget
    exact Snapshot.get?_ofTask hget

/-- The executor has answered. -/
theorem reached_bothSay (t : TaskView) (tid : PyStr) : Reached (bothSay t) (exec tid) :=
  ⟨_, List.mem_cons_of_mem _ (List.mem_cons_self ..), .ofTask key t, rfl, rfl⟩

theorem not_reportsDone_held {tid : PyStr} : ¬ ReportsDone (bothSay held) tid := by
  rintro ⟨t, ht, hdone⟩
  rw [(reports_bothSay ht).1] at hdone
  cases hdone

theorem tellsDone_done {tid : PyStr} (h : ReportsDone (bothSay done) tid) :
    TellsDone (bothSay done) tid := by
  rcases h with ⟨t, ht, _⟩
  rw [(reports_bothSay ht).2]
  exact ⟨rfl, [], done, [done], rfl, rfl, fun x hx => absurd hx List.not_mem_nil,
    fun x hx => le_of_eq (congrArg TaskView.version (List.mem_singleton.mp hx))⟩

/-- An executor that answers whenever the completion is seen is paid once. -/
theorem paid_at_once : Machine.Throughout economyStep (Paid exec)
      (Poller.start [8888, 8889] {}) prompt ∧
    (Machine.run economyStep (Poller.start [8888, 8889] {}) prompt).map (fun s =>
      s.app.creditsOf (lit "t")) = some [key] := by
  refine ⟨paid_once exec isKey [8888, 8889] _ ?_ ?_, rfl⟩
  · have hother : ∀ t ∈ [held, done], (Snapshot.ofTask (lit "aaaaaaaa1") t).Names exec := by
      intro t ht
      refine names ?_ (by decide)
      rcases List.mem_pair.mp ht with rfl | rfl
      · rfl
      · rfl
    have hexecutor : ∀ t ∈ [held, done], (Snapshot.ofTask key t).Names exec := by
      intro t ht
      refine names ?_ (fun _ => rfl)
      rcases List.mem_pair.mp ht with rfl | rfl
      · rfl
      · rfl
    unfold prompt bothSay
    simp only [List.map_cons, List.map_nil, List.cons_append, List.nil_append,
      List.forall_mem_cons, List.not_mem_nil, false_implies, implies_true, and_true]
    exact ⟨hother _ (by decide), hexecutor _ (by decide), trivial, hother _ (by decide),
      hexecutor _ (by decide), trivial⟩
  · intro s₁ h₁
    refine ⟨trivial, fun s₂ h₂ => ⟨trivial, fun s₃ h₃ => ⟨fun _ => ?_, fun s₄ h₄ => ⟨trivial,
      fun s₅ h₅ => ⟨trivial, fun s₆ h₆ => ⟨fun _ => ?_, trivial⟩⟩⟩⟩⟩⟩
    -- The first poll ends, and no node has told of a completion.
    · rw [← Option.some.inj h₁] at h₂
      rw [← Option.some.inj h₂]
      refine ⟨fun tid _ _ => reached_bothSay held tid, fun tid hsoFar _ _ => ?_⟩
      rcases hsoFar with ⟨r, hr, hdone⟩
      rw [List.mem_singleton.mp hr] at hdone
      exact absurd hdone not_reportsDone_held
    · rw [← Option.some.inj h₁] at h₂
      rw [← Option.some.inj h₂] at h₃
      rw [← Option.some.inj h₃] at h₄
      rw [← Option.some.inj h₄] at h₅
      rw [← Option.some.inj h₅]
      refine ⟨fun tid _ _ => reached_bothSay done tid, fun tid hsoFar _ _ => ?_⟩
      rcases hsoFar with ⟨r, hr, hdone⟩
      rcases List.mem_cons.mp hr with rfl | hr
      · exact absurd hdone not_reportsDone_held
      · rw [List.mem_singleton.mp hr] at hdone
        exact tellsDone_done hdone

end Returning

end WhisperNet
