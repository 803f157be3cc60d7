import WhisperNet.Crypto.Reference
import WhisperNet.Ledger.Atomicity
import WhisperNet.Runtime.Malformed

/-!
# Renewing a Lease in Time

A scan renews the leases of the node that have less than `renew_threshold` left,
and the next scan may be `SCAN_INTERVAL` later. A lease with exactly the threshold
left is not renewed, so it has to last another five seconds. After a convergence
the threshold is two fifths of the duration, as floats are multiplied: leases from
twelve and a half seconds on never lapse under a node that scans, and shorter ones may,
but for the float next below.

A scan ends where the gossip of a renewal raises, which it does when it goes to a
key that is a number, and the leases it has not come to are left to the next scan.

A run is timed: each event carries its time, no later than the next scan is due.
A scan takes no time. Other operations and updates come in between.

## Main definitions

* `TaskLedger.renewDue`: The renewals of a scan.
* `Adopted`: A ledger with this lease duration and its threshold.
* `Holder`, `Holder.step`: A ledger with a clock, and what happens at which time.
* `Holder.Foreign`, `Holder.Delivers`, `Holder.Orderly`: What a run may meet.
* `Claims`: A node that has just claimed the task.
* `Lasts`: The lease on the task has not run out.
* `Inv`: It lasts until the next scan is due.

## Theorems

* `renewDue_run`: The renewals as a run of the process.
* `renewDue_lease`: What a scan leaves of the leases.
* `op_lease`: What any other operation leaves of them.
* `interval_le_threshold`: Twelve and a half seconds are enough.
* `step_inv`: The invariant of a timed run.
* `lease_lasts_iff`: From which duration on a lease never lapses.
-/

namespace WhisperNet

open TaskLedger

/-- `SCAN_INTERVAL` -/
def scanInterval : ℚ := 5

/-! ## The renewals of a scan -/

namespace TaskLedger

/-- The loop over the tasks that need a renewal; it ends with the first one that
    raises, itself or as its gossip is sent. -/
def renewEach (now : ℚ) (sends : PyStr → Bool) : List PyVal → TaskLedger → TaskLedger
  | .str taskId :: rest, L =>
    match (L.renewLease taskId now).sent (sends taskId) with
    | .ok _ => renewEach now sends rest (L.renewLease taskId now).ledger
    | .error _ => (L.renewLease taskId now).ledger
  | _, L => L

/-- The first section of `_scan`. -/
def renewDue (L : TaskLedger) (now : ℚ) (sends : PyStr → Bool) : TaskLedger :=
  match L.getTasksNeedingRenewal now with
  | .ok due => renewEach now sends (due.map Task.taskId) L
  | .error _ => L

end TaskLedger

/-- The loop as a run of the process, each renewal with its transport. -/
theorem renewEach_run (H : Host) (now : ℚ) (sends : PyStr → Bool) (ids : List PyVal) (s : Process)
    (hup : s.up = true) (hscan : s.scan = .renewing ids) :
    ∃ (bs : List Bool) (s' : Process),
      Machine.run (Process.step H) s (bs.map (fun b => .act (.renew now b))) = some s' ∧
        s'.ledger = renewEach now sends ids s.ledger := by
  induction ids generalizing s with
  | nil => exact ⟨[], s, rfl, rfl⟩
  | cons v rest ih =>
      cases v with
      | str taskId =>
          cases hret : (s.ledger.renewLease taskId now).sent (sends taskId) with
          | error e =>
              -- The scan ends here: the renewal is saved, and the rest of the due is not renewed.
              have hstep : Process.step H s (.act (.renew now (sends taskId))) = some { s with
                  ledger := (s.ledger.renewLease taskId now).ledger
                  scan := .waiting } :=
                (if_pos hup).trans (by simp only [Process.act, hscan, hret])
              refine ⟨[sends taskId], { s with
                ledger := (s.ledger.renewLease taskId now).ledger
                scan := .waiting }, ?_, ?_⟩
              · rw [List.map_singleton, Machine.run, hstep]
                rfl
              · simp only [renewEach, hret]
          | ok b =>
              have hstep : Process.step H s (.act (.renew now (sends taskId))) = some { s with
                  ledger := (s.ledger.renewLease taskId now).ledger
                  scan := .renewing rest } :=
                (if_pos hup).trans (by simp only [Process.act, hscan, hret])
              rcases ih { s with
                ledger := (s.ledger.renewLease taskId now).ledger
                scan := .renewing rest } hup rfl with ⟨bs, s', hrun, hledger⟩
              refine ⟨sends taskId :: bs, s', ?_, ?_⟩
              · rw [List.map_cons, Machine.run, hstep]
                exact hrun
              · simp only [renewEach, hret]
                exact hledger
      | none => exact ⟨[], s, rfl, rfl⟩
      | bool b => exact ⟨[], s, rfl, rfl⟩
      | int n => exact ⟨[], s, rfl, rfl⟩
      | float q => exact ⟨[], s, rfl, rfl⟩
      | list xs => exact ⟨[], s, rfl, rfl⟩
      | dict kvs => exact ⟨[], s, rfl, rfl⟩

/-- A scan of the process renews what is due. -/
theorem renewDue_run (H : Host) (now : ℚ) (sends : PyStr → Bool) (s : Process) (hup : s.up = true)
    (hscan : s.scan = .waiting) :
    ∃ (bs : List Bool) (s' : Process), Machine.run (Process.step H) s
        (.act (.scan now) :: bs.map (fun b => .act (.renew now b))) = some s' ∧
      s'.ledger = s.ledger.renewDue now sends := by
  cases hdue : s.ledger.getTasksNeedingRenewal now with
  | error e =>
      refine ⟨[], s, ?_, ?_⟩
      · simp only [Machine.run, List.map_nil, Process.step, hup, if_true, Process.act, hscan,
          hdue, Option.bind_some]
      · simp only [renewDue, hdue]
  | ok due =>
      have hstep : Process.step H s (.act (.scan now)) =
          some { s with scan := .renewing (due.map Task.taskId) } :=
        (if_pos hup).trans (by simp only [Process.act, hscan, hdue])
      rcases renewEach_run H now sends (due.map Task.taskId)
        { s with scan := .renewing (due.map Task.taskId) } hup rfl with ⟨bs, s', hrun, hledger⟩
      refine ⟨bs, s', ?_, ?_⟩
      · rw [Machine.run, hstep]
        exact hrun
      · simp only [renewDue, hdue]
        exact hledger

/-! ## What it leaves of a lease -/

/-- The ledger has this lease duration, and the threshold that a convergence sets
    with it. -/
structure Adopted (d : ℚ) (L : TaskLedger) : Prop where
  duration : L.leaseDuration = d
  threshold : L.renewThreshold = thresholdOf d

theorem converge_adopted {L : TaskLedger} {d : ℚ}
    (h : farFrom L.leaseDuration d = true) :
    Adopted d (L.converge d) := by
  rw [TaskLedger.converge, if_pos h]
  exact ⟨rfl, rfl⟩

/-- A ledger with records as `Task` declares them, under their own ids, and this
    lease duration. -/
structure Timely (d : ℚ) (L : TaskLedger) : Prop where
  adopted : Adopted d L
  typed : ∀ k t, L.tasks.get? k = some t → WellTyped L.ourKey t
  keys : TextKeys L

/-- A call changes neither the duration nor the types. -/
theorem run_timely (P : Primitives) {d : ℚ} {L : TaskLedger} (c : Call) (h : Timely d L) :
    Timely d (c.run P L).1 := by
  refine ⟨?_, ?_, run_textKeys P L c h.keys⟩
  · rcases run_worked P L c with ⟨tasks, rescued, disk, heq⟩
    rw [heq]
    exact ⟨h.adopted.duration, h.adopted.threshold⟩
  · rw [(run_identity P L c).1]
    exact run_wellTyped P c h.typed

section Scan

variable {d now : ℚ} {L : TaskLedger} {taskId : PyStr} {task : Task}

/-- A node renews its own lease if it can count the version up. -/
theorem renewLease_true (hf : L.find? taskId = some task) (hmine : L.isMine task = true)
    (hversion : Number task.version) : (L.renewLease taskId now).ret = .ok true := by
  rcases hversion with ⟨q, hq⟩
  rcases (incr_ok_iff task.version).mpr (by rw [hq]; rfl) with ⟨v, hv⟩
  unfold renewLease
  simp only [hf, hmine, Bool.true_eq_false, if_false, hv]

theorem Timely.version (h : Timely d L) (hf : L.find? taskId = some task)
    (hmine : L.isMine task = true) : Number task.version :=
  ((h.typed _ task hf).live (Or.inl (not_completed_of_isMine hmine))).1

/-- A renewal does not raise. It sets the lease it is called for, and no other. -/
theorem renewLease_lease (P : Primitives) (h : Timely d L) (taskId : PyStr) (now : ℚ) :
    (∃ b, (L.renewLease taskId now).ret = .ok b) ∧ Timely d (L.renewLease taskId now).ledger ∧
      ∀ x task, (L.renewLease taskId now).ledger.find? x = some task → L.isMine task = true →
        task.leaseExpires = .float (now + d) ∨ (L.find? x = some task ∧ x ≠ taskId) := by
  -- The version of an own record is a number, so counting it up cannot raise.
  refine ⟨?_, run_timely P (.renewLease taskId now) h, fun x task ht hmine => ?_⟩
  · cases hf : L.find? taskId with
    | none =>
        unfold renewLease
        simp only [hf]
        exact ⟨false, rfl⟩
    | some old =>
        by_cases hm : L.isMine old = true
        · exact ⟨true, renewLease_true hf hm (h.version hf hm)⟩
        · unfold renewLease
          simp only [hf, if_pos (Bool.not_eq_true _ ▸ hm)]
          exact ⟨false, rfl⟩
  · rcases L.renewLease_cases taskId now with hidle | ⟨old, new, hw, _, _, _, _, hnew⟩
    · rw [find?, hidle.tasks] at ht
      refine Or.inr ⟨ht, fun hx => ?_⟩
      -- The record is ours, so its renewal is not idle.
      rw [hx] at ht
      exact hidle.ret (renewLease_true ht hmine (h.version ht hmine))
    · by_cases hx : x = taskId
      · rw [hx, find?, hw.tasks, Dict.get?_set_self, Option.some.injEq] at ht
        rw [← ht, hnew, h.adopted.duration]
        exact Or.inl rfl
      · rw [find?, hw.tasks, Dict.get?_set_of_ne _ _ _ _ (fun hc => hx (Key.str.inj hc))] at ht
        exact Or.inr ⟨ht, hx⟩

/-- The loop sets the leases it is called for, and no other, if all the gossip gets
    out. -/
theorem renewEach_lease (P : Primitives) (now : ℚ) {sends : PyStr → Bool}
    (hsends : ∀ x, sends x = true) (ids : List PyVal) (h : Timely d L)
    (hids : ∀ v ∈ ids, ∃ x, v = .str x) :
    Timely d (renewEach now sends ids L) ∧ (renewEach now sends ids L).ourKey = L.ourKey ∧
      ∀ x task, (renewEach now sends ids L).find? x = some task → L.isMine task = true →
        task.leaseExpires = .float (now + d) ∨ (L.find? x = some task ∧ .str x ∉ ids) := by
  -- Each call moves one lease; the rest of the loop leaves it alone or moves it again.
  induction ids generalizing L with
  | nil => exact ⟨h, rfl, fun x task ht _ => Or.inr ⟨ht, List.not_mem_nil⟩⟩
  | cons v rest ih =>
      rcases hids v (List.mem_cons_self ..) with ⟨taskId, hv⟩
      rcases renewLease_lease P h taskId now with ⟨⟨b, hb⟩, htimely, hlease⟩
      have hkey : (L.renewLease taskId now).ledger.ourKey = L.ourKey :=
        (run_identity P L (.renewLease taskId now)).1
      have hloop : renewEach now sends (v :: rest) L =
          renewEach now sends rest (L.renewLease taskId now).ledger := by
        rw [hv]
        simp only [renewEach, hsends taskId, sent_true, hb]
      rcases ih htimely (fun w hw => hids w (List.mem_cons_of_mem _ hw)) with
        ⟨htimely', hkey', hrest⟩
      rw [hloop]
      refine ⟨htimely', hkey'.trans hkey, fun x task ht hmine => ?_⟩
      have hmine' : (L.renewLease taskId now).ledger.isMine task = true := by
        rw [isMine_iff, hkey]
        exact (isMine_iff _ _).mp hmine
      rcases hrest x task ht hmine' with hset | ⟨hfound, hnot⟩
      · exact Or.inl hset
      · rcases hlease x task hfound hmine with hset | ⟨hbefore, hne⟩
        · exact Or.inl hset
        · refine Or.inr ⟨hbefore, fun hmem => ?_⟩
          rcases List.mem_cons.mp hmem with heq | hmem
          · rw [hv, PyVal.str.injEq] at heq
            exact hne heq
          · exact hnot hmem

/-- The first task is on the list of a scan that does not raise if it is of this
    node and due. -/
theorem needingRenewal_cons {u : Task} {ts due : List Task}
    (hdue : L.needingRenewal now (u :: ts) = .ok due) :
    ∃ rest, L.needingRenewal now ts = .ok rest ∧
      ((L.isMine u = true ∧ L.dueForRenewal now u = .ok true ∧ due = u :: rest) ∨
        ((L.isMine u = true → L.dueForRenewal now u = .ok false) ∧ due = rest)) := by
  rw [needingRenewal] at hdue
  by_cases hm : L.isMine u = true
  · rw [if_pos hm] at hdue
    cases hu : L.dueForRenewal now u with
    | error e =>
        rw [hu] at hdue
        simp only [reduceCtorEq] at hdue
    | ok b =>
        rw [hu] at hdue
        cases b with
        | false => exact ⟨due, hdue, Or.inr ⟨fun _ => rfl, rfl⟩⟩
        | true =>
            cases hrest : L.needingRenewal now ts with
            | error e =>
                rw [hrest] at hdue
                exact (nomatch hdue)
            | ok rest =>
                rw [hrest] at hdue
                exact ⟨rest, rfl, Or.inl ⟨hm, rfl, (Except.ok.inj hdue).symm⟩⟩
  · rw [if_neg hm] at hdue
    exact ⟨due, hdue, Or.inr ⟨fun hc => (hm hc).elim, rfl⟩⟩

/-- A scan renews the tasks of this node that are due. -/
theorem mem_needingRenewal {ts due : List Task} (hdue : L.needingRenewal now ts = .ok due) :
    (∀ t ∈ due, t ∈ ts ∧ L.dueForRenewal now t = .ok true) ∧
      ∀ t ∈ ts, L.isMine t = true → t ∈ due ∨ L.dueForRenewal now t = .ok false := by
  induction ts generalizing due with
  | nil =>
      rw [needingRenewal, Except.ok.injEq] at hdue
      rw [← hdue]
      exact ⟨fun t ht => (List.not_mem_nil ht).elim, fun t ht => (List.not_mem_nil ht).elim⟩
  | cons u ts ih =>
      -- The first task is due, or passed over.
      rcases needingRenewal_cons hdue with ⟨rest, hrest, ⟨_, hu, heq⟩ | ⟨hu, heq⟩⟩
      · rcases ih hrest with ⟨hsub, hall⟩
        rw [heq]
        refine ⟨fun t ht => ?_, fun t ht hmine => ?_⟩
        · rcases List.mem_cons.mp ht with ht | ht
          · rw [ht]
            exact ⟨List.mem_cons_self .., hu⟩
          · exact ⟨List.mem_cons_of_mem _ (hsub t ht).1, (hsub t ht).2⟩
        · rcases List.mem_cons.mp ht with ht | ht
          · rw [ht]
            exact Or.inl (List.mem_cons_self ..)
          · exact (hall t ht hmine).imp_left (List.mem_cons_of_mem _)
      · rcases ih hrest with ⟨hsub, hall⟩
        rw [heq]
        refine ⟨fun t ht => ⟨List.mem_cons_of_mem _ (hsub t ht).1, (hsub t ht).2⟩,
          fun t ht hmine => ?_⟩
        rcases List.mem_cons.mp ht with ht | ht
        · rw [ht] at hmine ⊢
          exact Or.inr (hu hmine)
        · exact hall t ht hmine

/-- After a scan whose gossip gets out, a lease of this node is new, or has the
    threshold left. -/
theorem renewDue_lease (P : Primitives) (h : Timely d L) (now : ℚ) {sends : PyStr → Bool}
    (hsends : ∀ x, sends x = true) :
    Timely d (L.renewDue now sends) ∧ (L.renewDue now sends).ourKey = L.ourKey ∧
      ∀ x task, (L.renewDue now sends).find? x = some task → L.isMine task = true →
        task.leaseExpires = .float (now + d) ∨
          (L.find? x = some task ∧ L.dueForRenewal now task = .ok false) := by
  -- Every record is under its own id, so the loop finds the record that was due.
  have hvalues : ∀ t ∈ L.tasks.values, ∃ x, L.find? x = some t ∧ t.taskId = .str x := by
    intro t ht
    rcases (Dict.mem_values _ _).mp ht with ⟨k, hk⟩
    rcases h.keys k t hk with ⟨x, hx, hid⟩
    rw [hx] at hk
    exact ⟨x, hk, hid⟩
  have htyped : ∀ t ∈ L.tasks.values, WellTyped L.ourKey t := by
    intro t ht
    rcases hvalues t ht with ⟨x, hx, _⟩
    exact h.typed _ t hx
  rcases needingRenewal_ok now htyped with ⟨due, hdue⟩
  rcases mem_needingRenewal hdue with ⟨hsub, hall⟩
  have hloop : L.renewDue now sends = renewEach now sends (due.map Task.taskId) L := by
    simp only [renewDue, getTasksNeedingRenewal, hdue]
  rcases renewEach_lease P now hsends (due.map Task.taskId) h (fun v hv => by
    rcases List.mem_map.mp hv with ⟨t, ht, htv⟩
    rcases hvalues t (hsub t ht).1 with ⟨x, _, hid⟩
    exact ⟨x, htv.symm.trans hid⟩) with ⟨htimely, hkey, hlease⟩
  rw [hloop]
  refine ⟨htimely, hkey, fun x task ht hmine => ?_⟩
  rcases hlease x task ht hmine with hset | ⟨hfound, hnot⟩
  · exact Or.inl hset
  · refine Or.inr ⟨hfound, (hall task ((Dict.mem_values _ _).mpr ⟨_, hfound⟩) hmine).resolve_left
      (fun hmem => hnot ?_)⟩
    rcases h.keys _ task hfound with ⟨y, hy, hid⟩
    rw [Key.str.inj hy, ← hid]
    exact List.mem_map_of_mem hmem

end Scan

/-! ## What other operations leave of it -/

/-- The time that a call reads from the clock. -/
def Call.clock : Call → Option ℚ
  | .submitTask env _ _ _ _ => some env.now
  | .claimTask _ now => some now
  | .renewLease _ now => some now
  | .completeTask _ _ now _ => some now
  | .recoverIdentity now => some now
  | .releaseLease _ => none
  | .releaseAllLeases => none

section Calls

variable {d now : ℚ} {L : TaskLedger}

theorem find_of_wrote {o : Outcome Bool} {taskId x : PyStr} {old new task : Task}
    (hw : L.Wrote o taskId old new) (ht : o.ledger.find? x = some task) :
    L.find? x = some task ∨ task = new := by
  rw [find?, hw.tasks, Dict.get?_set] at ht
  split at ht
  · exact Or.inr (Option.some.inj ht).symm
  · exact Or.inl ht

theorem find_of_bumpAll {assign : Task → Task} {x : PyStr} {task : Task}
    (ht : (L.bumpAll assign).ledger.find? x = some task) :
    L.find? x = some task ∨ ∃ old, task = (bump assign old).1 := by
  rcases L.bumpAll_get? assign (.str x) with hsame | ⟨old, _, _, hnew⟩
  · exact Or.inl (hsame.symm.trans ht)
  · rw [find?, hnew] at ht
    exact Or.inr ⟨old, (Option.some.inj ht).symm⟩

/-- A call at some time leaves a lease of this node alone, or it starts then. -/
theorem run_lease (P : Primitives) (h : Adopted d L) (c : Call) (hc : c.clock.getD now = now)
    {x : PyStr} {task : Task} (ht : (c.run P L).1.find? x = some task)
    (hmine : (c.run P L).1.isMine task = true) :
    L.find? x = some task ∨ task.leaseExpires = .float (now + d) := by
  -- What ends a lease leaves no record in progress.
  have hstatus : task.status = .inProgress := ((isMine_iff _ _).mp hmine).2
  cases c with
  | submitTask env taskId payload shardId submitterKey =>
      have hset : (L.tasks.set (.str taskId)
          (L.submittedTask P env taskId payload shardId submitterKey)).get? (.str x) =
            some task := ht
      rw [Dict.get?_set] at hset
      split at hset
      · rw [← Option.some.inj hset] at hstatus
        cases hstatus
      · exact Or.inl hset
  | claimTask taskId now' =>
      have hnow : now' = now := hc
      rcases L.claimTask_cases taskId now' with hidle | ⟨_, _, hw, _, _, _, _, _, hlease⟩
      · exact Or.inl (by rw [find?, ← hidle.tasks]; exact ht)
      · refine (find_of_wrote hw ht).imp_right (fun heq => ?_)
        rw [heq, hlease, h.duration, hnow]
  | renewLease taskId now' =>
      have hnow : now' = now := hc
      rcases L.renewLease_cases taskId now' with hidle | ⟨_, _, hw, _, _, _, _, hlease⟩
      · exact Or.inl (by rw [find?, ← hidle.tasks]; exact ht)
      · refine (find_of_wrote hw ht).imp_right (fun heq => ?_)
        rw [heq, hlease, h.duration, hnow]
  | completeTask taskId result now' uuid =>
      rcases L.completeTask_cases taskId result now' uuid with ⟨hidle, _⟩ | ⟨_, _, hw, _, hdone, _⟩
      · exact Or.inl (by rw [find?, ← hidle.tasks]; exact ht)
      · refine (find_of_wrote hw ht).imp_right (fun heq => ?_)
        rw [heq, hdone] at hstatus
        simp only [reduceCtorEq] at hstatus
  | releaseLease taskId =>
      rcases L.releaseLease_cases taskId with ⟨hidle, _⟩ | ⟨_, _, hw, _, hfree, _⟩
      · exact Or.inl (by rw [find?, ← hidle.tasks]; exact ht)
      · refine (find_of_wrote hw ht).imp_right (fun heq => ?_)
        rw [heq, hfree] at hstatus
        simp only [reduceCtorEq] at hstatus
  | releaseAllLeases =>
      refine (find_of_bumpAll ht).imp_right (fun hbump => ?_)
      rcases hbump with ⟨old, heq⟩
      rw [heq, (bump_fields _ _).1] at hstatus
      simp only [reduceCtorEq] at hstatus
  | recoverIdentity now' =>
      have hnow : now' = now := hc
      refine (find_of_bumpAll ht).imp_right (fun hbump => ?_)
      rcases hbump with ⟨old, heq⟩
      have hlease : (bump (fun t => { t with leaseExpires := .float (now' + L.leaseDuration) })
          old).1.leaseExpires = .float (now' + L.leaseDuration) := by
        unfold bump
        split
        · rfl
        · rfl
      rw [heq, hlease, h.duration, hnow]

end Calls

/-! ## Timed runs -/

/-- A ledger with the time, and the time of the last scan. -/
structure Holder where
  ledger : TaskLedger
  now : ℚ
  lastScan : ℚ

inductive TimedEvent
  /-- time passes -/
  | pass
  /-- a scan, with the ids whose renewal gets its gossip out -/
  | scan (sends : PyStr → Bool)
  /-- an operation by another thread, or later in a scan -/
  | op (o : Op)

def Op.clock : Op → Option ℚ
  | .call c => c.clock
  | .update _ => none

namespace Holder

/-- The state after an event at a time, which is no later than the next scan is
    due. -/
def step (P : Primitives) (s : Holder) (e : ℚ × TimedEvent) : Option Holder :=
  if s.now ≤ e.1 ∧ e.1 ≤ s.lastScan + scanInterval then
    match e.2 with
    | .pass => some { s with now := e.1 }
    | .scan sends => some { ledger := s.ledger.renewDue e.1 sends, now := e.1, lastScan := e.1 }
    | .op o =>
      if o.clock.getD e.1 = e.1 then some { s with ledger := o.apply P s.ledger, now := e.1 }
      else none
  else none

/-- The updates taken over are as declared, and of other nodes. -/
def Foreign (P : Primitives) (s : Holder) (e : ℚ × TimedEvent) : Prop :=
  ∀ msg t, e.2 = .op (.update msg) → Installs P s.ledger msg t →
    WellTyped s.ledger.ourKey t ∧ (∃ taskId, t.taskId = .str taskId) ∧ s.ledger.isMine t = false

/-- No gossip of a renewal raises: none of its targets is a number. -/
def Delivers (e : ℚ × TimedEvent) : Prop := ∀ sends, e.2 = .scan sends → ∀ x, sends x = true

/-- What a run may meet. -/
def Orderly (P : Primitives) (s : Holder) (e : ℚ × TimedEvent) : Prop :=
  Foreign P s e ∧ Delivers e

/-- The node has just claimed the task, with this lease duration, between two
    scans or in one. -/
def Claims (d : ℚ) (taskId : PyStr) (s : Holder) : Prop :=
  s.lastScan ≤ s.now ∧ s.now ≤ s.lastScan + scanInterval ∧
    ∃ L, Timely d L ∧ (L.claimTask taskId s.now).ret = .ok true ∧
      s.ledger = (L.claimTask taskId s.now).ledger

/-- As long as the node holds the task in progress, its lease has not run out. -/
def Lasts (taskId : PyStr) (s : Holder) : Prop :=
  ∀ task, s.ledger.find? taskId = some task → s.ledger.isMine task = true →
    PyVal.lt task.leaseExpires (.float s.now) = .ok false

/-- A lease on the task lasts until the next scan is due. -/
structure Inv (d : ℚ) (taskId : PyStr) (s : Holder) : Prop where
  timely : Timely d s.ledger
  since : s.lastScan ≤ s.now
  due : s.now ≤ s.lastScan + scanInterval
  lease : ∀ task, s.ledger.find? taskId = some task → s.ledger.isMine task = true →
    ∃ q, task.leaseExpires = .float q ∧ s.lastScan + scanInterval ≤ q

theorem thresholdOf_mono {d d' : ℚ} (h : d ≤ d') : thresholdOf d ≤ thresholdOf d' :=
  double_mono (mul_le_mul_of_nonneg_right h (by decide +kernel))

/-- A lease is longer than a scan interval if its threshold is. -/
theorem interval_le_of_threshold {d : ℚ} (hd : scanInterval ≤ thresholdOf d) :
    scanInterval ≤ d := by
  by_contra hshort
  have hmono := thresholdOf_mono (le_of_not_ge hshort)
  have hfive : thresholdOf scanInterval < scanInterval := by decide +kernel
  linarith

/-- Leases of twelve and a half seconds are long enough. -/
theorem interval_le_threshold {d : ℚ} (hd : 5 / 2 * scanInterval ≤ d) :
    scanInterval ≤ thresholdOf d := by
  have hleast : thresholdOf (5 / 2 * scanInterval) = scanInterval := by decide +kernel
  rw [← hleast]
  exact thresholdOf_mono hd

section Runs

variable {P : Primitives} {d : ℚ} {taskId : PyStr} {s s' : Holder} {e : ℚ × TimedEvent}

theorem lasts_of_inv (h : Inv d taskId s) : Lasts taskId s := by
  intro task ht hmine
  rcases h.lease task ht hmine with ⟨q, hq, hleft⟩
  have hnot : ¬ q < s.now := by
    have hdue := h.due
    linarith
  rw [hq]
  exact congrArg Except.ok (decide_eq_false hnot)

theorem inv_of_claims (hd : scanInterval ≤ d) (h : Claims d taskId s) : Inv d taskId s := by
  rcases h with ⟨hsince, hdue, L, htimely, hok, hledger⟩
  have hrun : s.ledger = ((Call.claimTask taskId s.now).run reference L).1 := hledger
  refine ⟨hrun ▸ run_timely reference (.claimTask taskId s.now) htimely, hsince, hdue,
    fun task ht _ => ⟨s.now + d, ?_, by linarith⟩⟩
  rcases L.claimTask_cases taskId s.now with hidle | ⟨_, _, hw, _, _, _, _, _, hlease⟩
  · exact (hidle.ret hok).elim
  · rw [hledger, find?, hw.tasks, Dict.get?_set_self, Option.some.injEq] at ht
    rw [← ht, hlease, htimely.adopted.duration]

/-- A lease that was left alone, or has just started. -/
theorem lease_next (hd : scanInterval ≤ d) (h : Inv d taskId s) {now : ℚ}
    (hnow : s.now ≤ now) {task : Task} (hmine : s.ledger.isMine task = true)
    (hcases : s.ledger.find? taskId = some task ∨ task.leaseExpires = .float (now + d)) :
    ∃ q, task.leaseExpires = .float q ∧ s.lastScan + scanInterval ≤ q := by
  rcases hcases with hsame | hnew
  · exact h.lease task hsame hmine
  · have hsince := h.since
    exact ⟨now + d, hnew, by linarith⟩

/-- An update as declared, of another node, changes no lease of this one. -/
theorem update_timely {L : TaskLedger} {msg : Msg} (h : Timely d L)
    (hnew : ∀ t, Installs P L msg t →
      WellTyped L.ourKey t ∧ (∃ taskId, t.taskId = .str taskId) ∧ L.isMine t = false) :
    Timely d (L.handleLedgerUpdate P msg).ledger ∧
      (L.handleLedgerUpdate P msg).ledger.ourKey = L.ourKey ∧
      ∀ x task, (L.handleLedgerUpdate P msg).ledger.find? x = some task → L.isMine task = true →
        L.find? x = some task := by
  have hkey := (update_identity P L msg).1
  refine ⟨⟨?_, ?_, update_textKeys P L msg h.keys (fun t ht => (hnew t ht).2.1)⟩, hkey,
    fun x task ht hmine => ?_⟩
  · rcases update_merged P L msg with ⟨tasks, disk, heq⟩
    rw [heq]
    exact ⟨h.adopted.duration, h.adopted.threshold⟩
  · rw [hkey]
    exact update_wellTyped P msg h.typed (fun t ht => (hnew t ht).1)
  · rcases update_installs P L msg with hsame | ⟨t, key, hinst, _, hset⟩
    · rw [find?, hsame] at ht
      exact ht
    · rw [find?, hset, Dict.get?_set] at ht
      split at ht
      · have hother := (hnew t hinst).2.2
        rw [Option.some.inj ht, hmine] at hother
        simp only [reduceCtorEq] at hother
      · exact ht

/-- Every event keeps the invariant. -/
theorem step_inv (hd : scanInterval ≤ thresholdOf d) (h : Inv d taskId s)
    (horderly : Orderly P s e) (hstep : step P s e = some s') : Inv d taskId s' := by
  have hlong := interval_le_of_threshold hd
  unfold step at hstep
  split at hstep
  · rename_i htime
    split at hstep
    · -- Time passes.
      rw [← Option.some.inj hstep]
      exact ⟨h.timely, h.since.trans htime.1, htime.2, h.lease⟩
    · -- A scan: what it leaves alone has the threshold left, which is an interval or more.
      rename_i sends heq
      rw [← Option.some.inj hstep]
      rcases renewDue_lease P h.timely e.1 (horderly.2 sends heq) with ⟨htimely, hkey, hlease⟩
      have hinterval : (0 : ℚ) ≤ scanInterval := by
        unfold scanInterval
        norm_num
      refine ⟨htimely, le_refl _, le_add_of_nonneg_right hinterval, fun task ht hmine => ?_⟩
      dsimp only at ht hmine
      have hmine' : s.ledger.isMine task = true := by
        rw [isMine_iff, ← hkey]
        exact (isMine_iff _ _).mp hmine
      rcases hlease taskId task ht hmine' with hnew | ⟨hsame, hdue⟩
      · exact ⟨e.1 + d, hnew, by dsimp only; linarith⟩
      · rcases h.lease task hsame hmine' with ⟨q, hq, _⟩
        refine ⟨q, hq, ?_⟩
        rw [dueForRenewal, hq, h.timely.adopted.threshold] at hdue
        have hleft := of_decide_eq_false (Except.ok.inj hdue)
        dsimp only
        linarith
    · split at hstep
      · rename_i o heq hclock
        rw [← Option.some.inj hstep]
        cases o with
        -- A call at this moment leaves the lease, or starts a new one now.
        | call c =>
            have hkey : (c.run P s.ledger).1.ourKey = s.ledger.ourKey := (run_identity P _ c).1
            refine ⟨run_timely P c h.timely, h.since.trans htime.1, htime.2,
              fun task ht hmine => ?_⟩
            have hmine' : s.ledger.isMine task = true := by
              rw [isMine_iff, ← hkey]
              exact (isMine_iff _ _).mp hmine
            exact lease_next hlong h htime.1 hmine' (run_lease P h.timely.adopted c hclock ht hmine)
        -- A merge installs no record of this node.
        | update msg =>
            rcases update_timely h.timely (fun t hinst => horderly.1 msg t heq hinst) with
              ⟨htimely, hkey, hfound⟩
            refine ⟨htimely, h.since.trans htime.1, htime.2, fun task ht hmine => ?_⟩
            have hmine' : s.ledger.isMine task = true := by
              rw [isMine_iff, ← hkey]
              exact (isMine_iff _ _).mp hmine
            exact h.lease task (hfound taskId task ht hmine') hmine'
      · simp only [reduceCtorEq] at hstep
  · simp only [reduceCtorEq] at hstep

/-- A run keeps the lease from lapsing if the threshold outlasts a scan interval. -/
theorem lasts_throughout (hd : scanInterval ≤ thresholdOf d) (hs : Claims d taskId s)
    (es : List (ℚ × TimedEvent)) (horderly : Machine.Along (step P) (Orderly P) s es) :
    Machine.Throughout (step P) (Lasts taskId) s es := by
  exact (Machine.throughout_of_along (step P) (Inv d taskId) (Orderly P)
    (fun s e s' h hok hstep => step_inv hd h hok hstep) s es
    (inv_of_claims (interval_le_of_threshold hd) hs) horderly).mono
    (fun s h => lasts_of_inv h)

end Runs

end Holder

/-! ## A lease that lapses -/

namespace Short

/-- A job that nobody has claimed. -/
def job : Task :=
  { taskId := .str (lit "t"), payload := .str (lit "p"), shardId := .int 1, status := .pending
    leasedBy := .none, leaseExpires := .float 0, result := .none, createdAt := .float 0
    version := .int 1 }

def ledger (d : ℚ) : TaskLedger where
  ourKey := lit "a"
  leaseDuration := d
  renewThreshold := thresholdOf d
  tasks := Dict.empty.set (.str (lit "t")) job

/-- The node has scanned and claimed the job at once. -/
def holder (d : ℚ) : Holder where
  ledger := ((ledger d).claimTask (lit "t") 0).ledger
  now := 0
  lastScan := 0

theorem find_job (d : ℚ) {k : Key} {t : Task} (h : (ledger d).tasks.get? k = some t) :
    k = .str (lit "t") ∧ t = job := by
  rw [ledger, Dict.get?_set] at h
  split at h
  · exact ⟨‹_›, (Option.some.inj h).symm⟩
  · cases h

theorem timely (d : ℚ) : Timely d (ledger d) where
  adopted := ⟨rfl, rfl⟩
  typed := by
    intro k t ht
    rw [(find_job d ht).2]
    exact wellTyped_fresh rfl rfl (rfl : job.createdAt = .float 0)
  keys := by
    intro k t ht
    rcases find_job d ht with ⟨hk, hjob⟩
    rw [hjob]
    exact ⟨lit "t", hk, rfl⟩

theorem encodable : (lit "a" ++ lit "t").any isSurrogate = false := by decide

theorem claimed (d : ℚ) : ((ledger d).claimTask (lit "t") 0).ret = .ok true :=
  (claimTask_true_iff _ _ _).mpr ⟨job, Dict.get?_set_self _ _ _,
    ⟨fun hc => (nomatch hc), fun hc => (nomatch hc)⟩, encodable, rfl⟩

theorem claims (d : ℚ) : Holder.Claims d (lit "t") (holder d) := by
  have hinterval : (0 : ℚ) ≤ 0 + scanInterval := by
    unfold scanInterval
    norm_num
  exact ⟨le_refl _, hinterval, ledger d, timely d, claimed d, rfl⟩

/-- The claimed record is the only one. -/
theorem record (d : ℚ) : ∃ new, (holder d).ledger.find? (lit "t") = some new ∧
    (holder d).ledger.isMine new = true ∧ new.leaseExpires = .float d ∧
    ∀ t ∈ (holder d).ledger.tasks.values, t = new := by
  rcases (ledger d).claimTask_cases (lit "t") 0 with
    hidle | ⟨old, new, hw, _, hstatus, _, hleased, _, hlease⟩
  · exact (hidle.ret (claimed d)).elim
  · have hkey : (holder d).ledger.ourKey = lit "a" :=
      (run_identity reference _ (.claimTask (lit "t") 0)).1
    have htasks : (holder d).ledger.tasks = (ledger d).tasks.set (.str (lit "t")) new := hw.tasks
    refine ⟨new, ?_, (isMine_iff _ _).mpr ⟨by rw [hkey]; exact hleased, hstatus⟩, ?_,
      fun t ht => ?_⟩
    · rw [TaskLedger.find?, htasks, Dict.get?_set_self]
    · rw [hlease]
      exact congrArg PyVal.float (zero_add d)
    · rw [htasks] at ht
      rcases (Dict.mem_values _ _).mp ht with ⟨k, hk⟩
      rw [Dict.get?_set] at hk
      split at hk
      · exact (Option.some.inj hk).symm
      · rename_i hne
        exact (hne (find_job d hk).1).elim

/-- A scan before less than the threshold is left renews nothing. -/
theorem scan_idle {d t : ℚ} (sends : PyStr → Bool) (ht : t + thresholdOf d ≤ d) :
    (holder d).ledger.renewDue t sends = (holder d).ledger := by
  rcases record d with ⟨new, _, hmine, hlease, honly⟩
  have htimely : Timely d (holder d).ledger :=
    run_timely reference (.claimTask (lit "t") 0) (timely d)
  have hidle : (holder d).ledger.dueForRenewal t new = .ok false := by
    rw [dueForRenewal, hlease, htimely.adopted.threshold]
    exact congrArg Except.ok (decide_eq_false (by linarith))
  have htyped : ∀ u ∈ (holder d).ledger.tasks.values, WellTyped (holder d).ledger.ourKey u := by
    intro u hu
    rcases (Dict.mem_values _ _).mp hu with ⟨k, hk⟩
    exact htimely.typed k u hk
  rcases needingRenewal_ok t htyped with ⟨due, hdue⟩
  have hnil : due = [] := by
    refine List.eq_nil_iff_forall_not_mem.mpr (fun u hu => ?_)
    rcases (mem_needingRenewal hdue).1 u hu with ⟨hmem, htrue⟩
    rw [honly u hmem, hidle] at htrue
    cases htrue
  rw [hnil] at hdue
  simp only [TaskLedger.renewDue, getTasksNeedingRenewal, hdue]
  rfl

theorem step_scan (P : Primitives) (d now last t : ℚ) (hnow : now ≤ t)
    (hdue : t ≤ last + scanInterval) (ht : t + thresholdOf d ≤ d) :
    Holder.step P ⟨(holder d).ledger, now, last⟩ (t, .scan (fun _ => true)) =
      some ⟨(holder d).ledger, t, t⟩ := by
  rw [Holder.step, if_pos ⟨hnow, hdue⟩]
  exact congrArg (fun L => some (Holder.mk L t t)) (scan_idle (fun _ => true) ht)

/-- After the duration nothing is left of the lease. -/
theorem not_lasts {d now : ℚ} (last : ℚ) (h : d < now) :
    ¬ Holder.Lasts (lit "t") ⟨(holder d).ledger, now, last⟩ := by
  intro hlasts
  rcases record d with ⟨new, hf, hmine, hlease, _⟩
  have hfalse := hlasts new hf hmine
  rw [hlease] at hfalse
  exact of_decide_eq_false (Except.ok.inj hfalse) h

/-- The last scan that does not renew the lease may be too early for the next. -/
theorem lapses (P : Primitives) {d : ℚ} (hd : thresholdOf d < scanInterval) :
    ∃ es, Machine.Along (Holder.step P) (Holder.Orderly P) (holder d) es ∧
      ¬ Machine.Throughout (Holder.step P) (Holder.Lasts (lit "t")) (holder d) es := by
  -- These schedules have no update in them, and all gossip gets out.
  have horderly : ∀ es : List (ℚ × TimedEvent),
      (∀ e ∈ es, e.2 = .pass ∨ e.2 = .scan (fun _ => true)) →
        Machine.Along (Holder.step P) (Holder.Orderly P) (holder d) es := by
    intro es hes
    refine Machine.along_of_forall _ _ _ _ (fun e he s =>
      ⟨fun msg t hmsg _ => ?_, fun sends hscan x => ?_⟩)
    · rcases hes e he with hpass | hscan
      · rw [hpass] at hmsg
        cases hmsg
      · rw [hscan] at hmsg
        cases hmsg
    · rcases hes e he with hpass | hall
      · rw [hpass] at hscan
        cases hscan
      · rw [hall, TimedEvent.scan.injEq] at hscan
        rw [← hscan]
  have hshort : d < 5 / 2 * scanInterval := by
    by_contra hlong
    exact absurd (Holder.interval_le_threshold (le_of_not_gt hlong)) (not_le_of_gt hd)
  by_cases hinterval : scanInterval ≤ d
  · -- With exactly the threshold left, five seconds pass to the next scan.
    have hthreshold : 2 ≤ thresholdOf d :=
      le_trans (by decide +kernel) (Holder.thresholdOf_mono hinterval)
    obtain ⟨t, ht⟩ : ∃ t, t = (d - thresholdOf d) / 3 := ⟨_, rfl⟩
    unfold scanInterval at hd hshort hinterval
    have hfirst := step_scan P d 0 0 t (by linarith) (by unfold scanInterval; linarith)
      (by linarith)
    have hsecond := step_scan P d t t (2 * t) (by linarith) (by unfold scanInterval; linarith)
      (by linarith)
    have hthird := step_scan P d (2 * t) (2 * t) (3 * t) (by linarith)
      (by unfold scanInterval; linarith) (by linarith)
    have hpass : Holder.step P ⟨(holder d).ledger, 3 * t, 3 * t⟩ (3 * t + scanInterval, .pass) =
        some ⟨(holder d).ledger, 3 * t + scanInterval, 3 * t⟩ :=
      if_pos ⟨by unfold scanInterval; linarith, le_refl _⟩
    refine ⟨[(t, .scan (fun _ => true)), (2 * t, .scan (fun _ => true)),
      (3 * t, .scan (fun _ => true)), (3 * t + scanInterval, .pass)],
      horderly _ (fun e he => ?_), fun h => ?_⟩
    · simp only [List.mem_cons, List.not_mem_nil, or_false] at he
      rcases he with he | he | he | he
      · exact Or.inr (congrArg Prod.snd he)
      · exact Or.inr (congrArg Prod.snd he)
      · exact Or.inr (congrArg Prod.snd he)
      · exact Or.inl (congrArg Prod.snd he)
    · exact not_lasts _ (by unfold scanInterval; linarith)
        ((((h.2 _ hfirst).2 _ hsecond).2 _ hthird).2 _ hpass)
  · -- A lease that is over by the next scan needs none.
    have hpass : Holder.step P (holder d) (scanInterval, .pass) =
        some ⟨(holder d).ledger, scanInterval, 0⟩ :=
      if_pos ⟨by unfold scanInterval holder; norm_num, by unfold holder; exact (zero_add _).ge⟩
    refine ⟨[(scanInterval, .pass)], horderly _ (fun e he => ?_), fun h => ?_⟩
    · exact Or.inl (congrArg Prod.snd (List.mem_singleton.mp he))
    · exact not_lasts 0 (lt_of_not_ge hinterval) (h.2 _ hpass)

end Short

/-- Under scans that start at most an interval apart and get their gossip out, no
    lease of this duration lapses while it is held, whenever the task is claimed and
    whatever else happens, exactly if the threshold that goes with the duration is no
    less than an interval. -/
theorem lease_lasts_iff (P : Primitives) (d : ℚ) :
    (∀ taskId s es, Holder.Claims d taskId s →
      Machine.Along (Holder.step P) (Holder.Orderly P) s es →
        Machine.Throughout (Holder.step P) (Holder.Lasts taskId) s es) ↔
      scanInterval ≤ thresholdOf d := by
  constructor
  · intro h
    by_contra hshort
    rcases Short.lapses P (lt_of_not_ge hshort) with ⟨es, horderly, hlapses⟩
    exact hlapses (h _ _ es (Short.claims d) horderly)
  · intro hd taskId s es hs horderly
    exact Holder.lasts_throughout hd hs es horderly

-- The last two floats below twelve and a half: only one of them is too short.
example : scanInterval ≤ thresholdOf (25 / 2 - 1 / 2 ^ 49) ∧
    thresholdOf (25 / 2 - 1 / 2 ^ 48) < scanInterval := by decide +kernel

/-- Leases of five seconds: at the first scan after the claim two seconds are left,
    which is no less than the threshold, and the next one comes too late. -/
theorem Short.fast_lapses : Holder.Claims 5 (lit "t") (Short.holder 5) ∧
    Machine.run (Holder.step reference) (Short.holder 5)
        [(3, .scan (fun _ => true)), (8, .pass)] = some ⟨(Short.holder 5).ledger, 8, 3⟩ ∧
    ¬ Machine.Throughout (Holder.step reference) (Holder.Lasts (lit "t")) (Short.holder 5)
      [(3, .scan (fun _ => true)), (8, .pass)] := by
  have hscan : Holder.step reference (Short.holder 5) (3, .scan (fun _ => true)) =
      some ⟨(Short.holder 5).ledger, 3, 3⟩ :=
    Short.step_scan reference 5 0 0 3 (by norm_num)
      (by unfold scanInterval; norm_num) (by decide +kernel)
  have hpass : Holder.step reference ⟨(Short.holder 5).ledger, 3, 3⟩ (8, .pass) =
      some ⟨(Short.holder 5).ledger, 8, 3⟩ :=
    if_pos ⟨by norm_num, by unfold scanInterval; norm_num⟩
  refine ⟨Short.claims 5, ?_, fun h => ?_⟩
  · rw [Machine.run, hscan, Option.bind_some, Machine.run, hpass]
    rfl
  · exact Short.not_lasts 3 (by norm_num) ((h.2 _ hscan).2 _ hpass)

end WhisperNet
