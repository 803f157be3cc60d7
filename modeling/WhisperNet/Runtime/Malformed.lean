import WhisperNet.Crypto.Reference
import WhisperNet.Ledger.Restart
import WhisperNet.Runtime.Node

/-!
# Malformed Updates

A record that arrives by gossip is stored without a look at its fields. What
reads it later compares and subtracts them: the two queries of the scan loop,
the metrics, and the version test of every later update of the same task. One
field that is not a number makes each of them raise, for as long as the record
is stored, and the queries go over all records.

`WellTyped` says of a record that nothing a node does with it can lead to that.
A completed record that another node holds is only ever looked at for its
times, so there the version may be anything. Every other record may come to be
claimed and completed by this node.

One query puts the records together: the metrics sum the completion times. These
are floats where a node has completed the task itself, but what an update brings
may have integers, which have no bound, and their sum is converted to a float
when it meets one. So the integers must not be too large together.

## Main definitions

* `Number`, `InRange`: A number, and one that can be converted to a float.
* `WellTyped`: A record that no reader of the ledger raises on.
* `weighs`, `TimesFit`: The completion times that are integers, and their sum.
* `Proper`: An update as an honest node sends it.
* `Serves`: No query raises, and no proper update is met by an exception.
* `Admits`: The condition on a step.
* `Sane`: Well typed records, in the ledger and in its file.

## Theorems

* `serves_of_wellTyped`: Well typed records whose times fit serve.
* `run_wellTyped`, `run_timesFit`: Every call keeps them so.
* `step_sane`: So does every admitted step of a node.
* `updates_served`: In a run of admitted steps the ledger serves throughout.
* `Wedged.scan_raises`: One update after which every scan raises.
-/

namespace WhisperNet

open MembershipLayer TaskLedger WhisperNode
open PyVal (get getD)

def Number (v : PyVal) : Prop := ∃ q, v.asNum = some q

/-- A number in the range of a float. -/
def InRange (v : PyVal) : Prop := ∃ q, v.toFloat = .ok q

/-- The record of a task at the node with this key can be read now and after
    whatever the node does with it. -/
structure WellTyped (ourKey : PyStr) (t : Task) : Prop where
  /-- of a record that a call may rewrite -/
  live : t.status ≠ .completed ∨ t.leasedBy = .str ourKey → Number t.version ∧ InRange t.createdAt
  lease : t.status = .inProgress →
    Number t.leaseExpires ∧ (t.leasedBy = .str ourKey → InRange t.leaseExpires)
  times : t.status = .completed → t.completedAt.truthy = true →
    ∃ d, PyVal.minus t.completedAt t.createdAt = .ok d

/-- What the completion time of a record adds to a sum of integers. -/
def weighs (t : Task) : Nat :=
  if t.status = .completed ∧ t.completedAt.truthy = true then
    match PyVal.minus t.completedAt t.createdAt with
    | .ok d => d.weight
    | .error _ => 0
  else 0

/-- The integers among the completion times are not too large for a float, all
    together. -/
def TimesFit (tasks : Dict Key Task) : Prop :=
  (((tasks.values.map weighs).sum : Nat) : ℚ) < PyVal.floatBound

/-- An update as an honest node sends it. -/
structure Proper (msg : Msg) : Prop where
  hops : ∃ h, getD msg (lit "hops") (.int 0) = .int h
  record : ∃ t : Task, get msg (lit "task") = .dict t.toDict ∧
    (∃ taskId, t.taskId = .str taskId) ∧ (∃ n, t.version = .int n) ∧
    (t.leasedBy = .none ∨ ∃ key, t.leasedBy = .str key)

/-- No query of the ledger raises, and no proper update is met by an exception. -/
structure Serves (P : Primitives) (L : TaskLedger) : Prop where
  claimable : ∀ now, ∃ ts, L.getClaimableTasks now = .ok ts
  renewal : ∀ now, ∃ ts, L.getTasksNeedingRenewal now = .ok ts
  metrics : ∃ m, L.getMetrics = .ok m
  update : ∀ msg, Proper msg → (L.handleLedgerUpdate P msg).ret = .ok ()

/-- If an update arrives and the ledger takes over its record, that record is
    well typed, and the completion times with it still fit. -/
def Admits (P : Primitives) (s : WhisperNode) : NodeEvent → Prop
  | .receive _ _ msg => get msg (lit "type") = .str (lit "ledger_update") →
    ∀ t, Installs P s.ledger msg t → WellTyped s.ledger.ourKey t ∧
      ∀ key, hashKey t.taskId = .ok key → TimesFit (s.ledger.tasks.set key t)
  | _ => True

/-! ## What well typed records serve -/

section Queries

variable {L : TaskLedger}

theorem claimable_ok (now : ℚ) {ts : List Task} (h : ∀ t ∈ ts, WellTyped L.ourKey t) :
    ∃ out, L.claimable now ts = .ok out := by
  induction ts with
  | nil => exact ⟨[], rfl⟩
  | cons t ts ih =>
      rcases ih (fun t' ht' => h t' (List.mem_cons_of_mem _ ht')) with ⟨out, hout⟩
      have ht := h t (List.mem_cons_self ..)
      unfold claimable
      cases hstatus : t.status with
      | pending =>
          simp only [hout]
          exact ⟨_, rfl⟩
      | inProgress =>
          rcases (ht.lease hstatus).1 with ⟨q, hq⟩
          simp only [lt_number hq (show (PyVal.float now).asNum = some now from rfl), hout]
          split
          · exact ⟨_, rfl⟩
          · exact ⟨_, rfl⟩
      | completed => exact ⟨out, hout⟩
      | other v hv => exact ⟨out, hout⟩

theorem needingRenewal_ok (now : ℚ) {ts : List Task} (h : ∀ t ∈ ts, WellTyped L.ourKey t) :
    ∃ out, L.needingRenewal now ts = .ok out := by
  induction ts with
  | nil => exact ⟨[], rfl⟩
  | cons t ts ih =>
      rcases ih (fun t' ht' => h t' (List.mem_cons_of_mem _ ht')) with ⟨out, hout⟩
      unfold needingRenewal
      by_cases hmine : L.isMine t = true
      · rcases (L.isMine_iff t).mp hmine with ⟨hholder, hstatus⟩
        rcases ((h t (List.mem_cons_self ..)).lease hstatus).2 hholder with ⟨q, hq⟩
        rcases sub_ok hq (show (PyVal.float now).toFloat = .ok now from rfl) with ⟨left, hleft⟩
        rw [if_pos hmine, dueForRenewal, hleft, hout]
        simp only [Except.map]
        split
        · exact ⟨_, rfl⟩
        · exact ⟨_, rfl⟩
      · rw [if_neg hmine]
        exact ⟨out, hout⟩

/-- The times are computed, and weigh what the records weigh. -/
theorem completionTimes_ok {ts : List Task} (h : ∀ t ∈ ts, WellTyped L.ourKey t) :
    ∃ times, completionTimes ts = .ok times ∧
      (times.map PyNum.weight).sum = (ts.map weighs).sum := by
  induction ts with
  | nil => exact ⟨[], rfl, rfl⟩
  | cons t ts ih =>
      rcases ih (fun t' ht' => h t' (List.mem_cons_of_mem _ ht')) with ⟨times, htimes, hsum⟩
      unfold completionTimes
      rw [List.map_cons, List.sum_cons, ← hsum, weighs]
      by_cases hdone : t.status = .completed ∧ t.completedAt.truthy = true
      · rcases (h t (List.mem_cons_self ..)).times hdone.1 hdone.2 with ⟨d, hd⟩
        rw [if_pos hdone, if_pos hdone, hd, htimes]
        exact ⟨_, rfl, rfl⟩
      · rw [if_neg hdone, if_neg hdone, Nat.zero_add]
        exact ⟨times, htimes, rfl⟩

/-- The mean exists if the times fit. -/
theorem getMetrics_ok (h : ∀ t ∈ L.tasks.values, WellTyped L.ourKey t) (hfit : TimesFit L.tasks) :
    ∃ m, L.getMetrics = .ok m := by
  rcases completionTimes_ok h with ⟨times, htimes, hsum⟩
  unfold getMetrics
  simp only [htimes, bind, Except.bind]
  cases times with
  | nil => exact ⟨_, rfl⟩
  | cons first rest =>
      unfold TimesFit at hfit
      rw [← hsum] at hfit
      rcases PyNum.sum_ok hfit with ⟨total, htotal, hlt⟩
      rcases PyNum.mean_ok (n := (first :: rest).length) (Nat.succ_pos _) hlt with ⟨avg, havg⟩
      simp only [htotal, havg]
      exact ⟨_, rfl⟩

end Queries

/-- A proper update against a record that is well typed, or none: the versions
    compare, the log line is written, the relay is made. -/
theorem mergeTask_returns {L : TaskLedger} {msg : Msg} {key : Key} {t : Task}
    (hold : ∀ old, L.tasks.get? key = some old → WellTyped L.ourKey old)
    (hops : ∃ h, getD msg (lit "hops") (.int 0) = .int h) (hid : ∃ taskId, t.taskId = .str taskId)
    (hversion : ∃ n, t.version = .int n)
    (hholder : t.leasedBy = .none ∨ ∃ key, t.leasedBy = .str key) :
    (L.mergeTask msg key t).ret = .ok () := by
  -- The comparison of the versions needs two numbers.
  have haccepts : ∃ b, accepts (L.tasks.get? key) t = .ok b := by
    cases hk : L.tasks.get? key with
    | none => exact ⟨true, rfl⟩
    | some old =>
        unfold accepts
        dsimp only
        by_cases hdone : old.status = .completed
        · rw [if_pos hdone]
          exact ⟨false, rfl⟩
        · rw [if_neg hdone]
          rcases ((hold old hk).live (Or.inl hdone)).1 with ⟨q, hq⟩
          rcases hversion with ⟨n, hn⟩
          rw [PyVal.gt, hn, lt_number hq (show (PyVal.int n).asNum = some (n : ℚ) from rfl)]
          cases decide (q < (n : ℚ)) with
          | true => exact ⟨_, rfl⟩
          | false => exact ⟨_, rfl⟩
  -- The log lines slice the id and the holder.
  have hlogs : L.logsOk (L.tasks.get? key) t = true := by
    have hsliceable : t.taskId.sliceable = true := by
      rcases hid with ⟨taskId, hid⟩
      rw [hid]
      rfl
    have hheld : (!t.leasedBy.truthy || t.leasedBy.sliceable) = true := by
      rcases hholder with hnone | ⟨key, hkey⟩
      · rw [hnone]
        rfl
      · rw [hkey]
        exact Bool.or_true _
    unfold logsOk
    dsimp only
    rw [hheld, hsliceable]
    split
    · rfl
    · split
      · split
        · rfl
        · split
          · rfl
          · rfl
      · rfl
  rcases haccepts with ⟨b, haccepts⟩
  unfold mergeTask
  rw [haccepts]
  cases b with
  | false => rfl
  | true =>
      rcases hops with ⟨h, hh⟩
      dsimp only
      rw [if_pos hlogs, relay, hh]

theorem update_returns (P : Primitives) {L : TaskLedger}
    (h : ∀ k t, L.tasks.get? k = some t → WellTyped L.ourKey t) {msg : Msg} (hmsg : Proper msg) :
    (L.handleLedgerUpdate P msg).ret = .ok () := by
  rcases hmsg.record with ⟨t, htask, ⟨taskId, hid⟩, hversion, hholder⟩
  unfold handleLedgerUpdate
  split
  · rfl
  · dsimp only
    unfold handleFresh
    split
    · rfl
    · split
      · rfl
      · rw [htask]
        dsimp only
        rw [Task.fromDict_toDict]
        dsimp only
        rw [hid, hashKey]
        exact mergeTask_returns (fun old hold => h _ old hold) hmsg.hops ⟨taskId, hid⟩ hversion
          hholder

theorem serves_of_wellTyped (P : Primitives) {L : TaskLedger}
    (h : ∀ k t, L.tasks.get? k = some t → WellTyped L.ourKey t) (hfit : TimesFit L.tasks) :
    Serves P L := by
  have hvalues : ∀ t ∈ L.tasks.values, WellTyped L.ourKey t := by
    intro t ht
    rcases (L.tasks.mem_values t).mp ht with ⟨k, hk⟩
    exact h k t hk
  exact ⟨fun now => claimable_ok now hvalues, fun now => needingRenewal_ok now hvalues,
    getMetrics_ok hvalues hfit, fun msg hmsg => update_returns P h hmsg⟩

/-! ## What keeps records well typed -/

/-- A call rewrites no completed record of another node. -/
theorem edit_live {L : TaskLedger} {k : Key} {old new : Task} {c : Call}
    (h : Edit L k (some old) new c) (hsubmit : c.isSubmit = false) :
    old.status ≠ .completed ∨ old.leasedBy = .str L.ourKey := by
  have hmine : L.isMine old = true → old.status ≠ .completed ∨ old.leasedBy = .str L.ourKey :=
    fun hm => Or.inr ((L.isMine_iff old).mp hm).1
  -- Each call asks for one of the two before it writes.
  cases c with
  | submitTask env taskId payload shardId submitterKey => exact (nomatch hsubmit)
  | claimTask taskId now =>
      rcases h with ⟨_, t, ht, hnot, _⟩
      rw [Option.some.inj ht]
      exact Or.inl hnot
  | renewLease taskId now =>
      rcases h with ⟨_, t, ht, hm, _⟩
      exact hmine (Option.some.inj ht ▸ hm)
  | completeTask taskId result now uuid =>
      rcases h with ⟨_, t, ht, hholder, _⟩
      rw [Option.some.inj ht]
      exact Or.inr hholder
  | releaseLease taskId =>
      rcases h with ⟨_, t, ht, hholder, _⟩
      rw [Option.some.inj ht]
      exact Or.inr hholder
  | releaseAllLeases =>
      rcases h with ⟨t, ht, hm, _⟩
      exact hmine (Option.some.inj ht ▸ hm)
  | recoverIdentity now =>
      rcases h with ⟨t, ht, hm, _⟩
      exact hmine (Option.some.inj ht ▸ hm)

/-- A record with a number for a version and a float for its creation, pending. -/
theorem wellTyped_fresh {ourKey : PyStr} {t : Task} {now : ℚ} (hstatus : t.status = .pending)
    (hversion : t.version = .int 1) (hcreated : t.createdAt = .float now) : WellTyped ourKey t := by
  refine ⟨fun _ => ⟨⟨1, by rw [hversion]; rfl⟩, ⟨now, by rw [hcreated]; rfl⟩⟩, fun hc => ?_,
    fun hc => ?_⟩
  · rw [hstatus] at hc
    exact (nomatch hc)
  · rw [hstatus] at hc
    exact (nomatch hc)

/-- A rewritten record has new times, or times that are never read. -/
theorem wellTyped_rewritten {ourKey : PyStr} {old new : Task} (h : WellTyped ourKey old)
    (hlive : old.status ≠ .completed ∨ old.leasedBy = .str ourKey)
    (hcounted : Counted (some old) new) (hnew : Rewritten old new) : WellTyped ourKey new := by
  rcases h.live hlive with ⟨⟨n, hn⟩, created, hcreated⟩
  -- The version is counted up from a number, or kept.
  have hversion : Number new.version := by
    rcases hcounted with ⟨t, ht, hincr | hsame⟩
    · rcases incr_number _ _ hincr with ⟨m, hm⟩ | ⟨q, hq⟩
      · exact ⟨m, by rw [hm]; rfl⟩
      · exact ⟨q, by rw [hq]; rfl⟩
    · rw [hsame, ← Option.some.inj ht]
      exact ⟨n, hn⟩
  refine ⟨fun _ => ⟨hversion, created, by rw [hnew.createdAt]; exact hcreated⟩, fun hlease => ?_,
    fun hdone _ => ?_⟩
  · rcases hnew.lease hlease with ⟨q, hq⟩
    rw [hq]
    exact ⟨⟨q, rfl⟩, fun _ => ⟨q, rfl⟩⟩
  · rcases hnew.done hdone with ⟨q, hq⟩
    rw [hq, hnew.createdAt]
    rcases PyVal.minus_float hcreated with ⟨x, hx⟩
    exact ⟨_, hx⟩

/-- A record that this node completes has a float for its time. -/
theorem weighs_rewritten {ourKey : PyStr} {old new : Task} (h : WellTyped ourKey old)
    (hlive : old.status ≠ .completed ∨ old.leasedBy = .str ourKey) (hnew : Rewritten old new) :
    weighs new = 0 := by
  rcases h.live hlive with ⟨_, created, hcreated⟩
  unfold weighs
  split
  · rename_i hdone
    rcases hnew.done hdone.1 with ⟨q, hq⟩
    rcases PyVal.minus_float hcreated with ⟨x, hx⟩
    rw [hq, hnew.createdAt, hx]
    rfl
  · rfl

theorem weighs_pending {t : Task} (h : t.status = .pending) : weighs t = 0 := by
  unfold weighs
  rw [h]
  rfl

theorem run_wellTyped (P : Primitives) {L : TaskLedger} (c : Call)
    (h : ∀ k t, L.tasks.get? k = some t → WellTyped L.ourKey t) (k : Key) (t : Task)
    (ht : (c.run P L).1.tasks.get? k = some t) : WellTyped L.ourKey t := by
  rcases run_reworked P L c ht with hsame | ⟨hsubmit, old, hold, hrewritten⟩ |
    ⟨env, taskId, payload, shardId, submitterKey, _, hnew⟩
  · exact h k t hsame
  · rcases (run_edits P L c).record k with hkept | ⟨new, hget, hedit, hcounted⟩
    · exact h k t (hkept ▸ ht)
    · rw [ht, Option.some.injEq] at hget
      rw [hold, ← hget] at hedit hcounted
      exact wellTyped_rewritten (h k old hold) (edit_live hedit hsubmit) (hcounted hsubmit)
        hrewritten
  · rw [hnew]
    exact wellTyped_fresh rfl rfl rfl

/-- A call files no record whose time is an integer. -/
theorem run_timesFit (P : Primitives) {L : TaskLedger} (c : Call)
    (h : ∀ k t, L.tasks.get? k = some t → WellTyped L.ourKey t) (hfit : TimesFit L.tasks) :
    TimesFit (c.run P L).1.tasks := by
  refine lt_of_le_of_lt (Nat.cast_le.mpr (Dict.sum_values_le weighs L.tasks _ ?_)) hfit
  intro k t ht hweighs
  rcases run_reworked P L c ht with hsame | ⟨hsubmit, old, hold, hrewritten⟩ |
    ⟨env, taskId, payload, shardId, submitterKey, _, hnew⟩
  · exact hsame
  · rcases (run_edits P L c).record k with hkept | ⟨new, hget, hedit, _⟩
    · exact hkept ▸ ht
    · rw [ht, Option.some.injEq] at hget
      rw [hold, ← hget] at hedit
      exact absurd (weighs_rewritten (h k old hold) (edit_live hedit hsubmit) hrewritten) hweighs
  · rw [hnew] at hweighs
    exact absurd (weighs_pending rfl) hweighs

/-- A submission with values of any type is still one of a fresh record. -/
theorem submittedRaw_fresh (P : Primitives) (L : TaskLedger) (env : SubmitEnv)
    (taskId payload : PyVal) (shardId : Int) (submitterKey : PyVal) :
    (L.submittedRaw P env taskId payload shardId submitterKey).status = .pending ∧
      (L.submittedRaw P env taskId payload shardId submitterKey).version = .int 1 ∧
      (L.submittedRaw P env taskId payload shardId submitterKey).createdAt = .float env.now := by
  cases payload with
  | str text => exact ⟨rfl, rfl, rfl⟩
  | none => exact ⟨rfl, rfl, rfl⟩
  | bool b => exact ⟨rfl, rfl, rfl⟩
  | int n => exact ⟨rfl, rfl, rfl⟩
  | float q => exact ⟨rfl, rfl, rfl⟩
  | list xs => exact ⟨rfl, rfl, rfl⟩
  | dict kvs => exact ⟨rfl, rfl, rfl⟩

theorem submitRaw_wellTyped (P : Primitives) {L : TaskLedger} (env : SubmitEnv)
    (taskId payload : PyVal) (shardId : Int) (submitterKey : PyVal)
    (h : ∀ k t, L.tasks.get? k = some t → WellTyped L.ourKey t) (k : Key) (t : Task)
    (ht : (L.submitRaw P env taskId payload shardId submitterKey).ledger.tasks.get? k = some t) :
    WellTyped L.ourKey t := by
  rcases submittedRaw_fresh P L env taskId payload shardId submitterKey with
    ⟨hstatus, hversion, hcreated⟩
  have hfresh : WellTyped L.ourKey (L.submittedRaw P env taskId payload shardId submitterKey) :=
    wellTyped_fresh hstatus hversion hcreated
  unfold submitRaw at ht
  cases hkey : hashKey taskId with
  | error e =>
      rw [hkey] at ht
      exact h k t ht
  | ok key =>
      rw [hkey] at ht
      change (L.tasks.set key _).get? k = some t at ht
      rw [Dict.get?_set] at ht
      -- The new record, or one that was there.
      by_cases hk : k = key
      · rw [if_pos hk, Option.some.injEq] at ht
        exact ht ▸ hfresh
      · rw [if_neg hk] at ht
        exact h k t ht

/-- An update keeps records well typed if what it installs is. -/
theorem update_wellTyped (P : Primitives) {L : TaskLedger} (msg : Msg)
    (h : ∀ k t, L.tasks.get? k = some t → WellTyped L.ourKey t)
    (hadmits : ∀ t, Installs P L msg t → WellTyped L.ourKey t) (k : Key) (t : Task)
    (ht : (L.handleLedgerUpdate P msg).ledger.tasks.get? k = some t) : WellTyped L.ourKey t := by
  rcases update_installs P L msg with hsame | ⟨new, key, hinst, _, hset⟩
  · exact h k t (hsame ▸ ht)
  · rw [hset, Dict.get?_set] at ht
    by_cases hk : k = key
    · rw [if_pos hk, Option.some.injEq] at ht
      exact ht ▸ hadmits new hinst
    · rw [if_neg hk] at ht
      exact h k t ht

/-! ## Over a run -/

/-- What an entry of the file adds to the sum once it is loaded. -/
def entryWeighs (v : PyVal) : Nat :=
  match v with
  | .dict d => match Task.fromDict d with
    | .ok t => weighs t
    | .error _ => 0
  | _ => 0

/-- The completion times in the file fit. -/
def FileFits (disk : Option Msg) : Prop :=
  ∀ entries, disk = some entries →
    (((entries.map (fun e => entryWeighs e.2)).sum : Nat) : ℚ) < PyVal.floatBound

theorem fileFits_persist {L : TaskLedger} (h : TimesFit L.tasks) : FileFits L.persist.disk := by
  intro entries hentries
  have hsum : entries.map (fun e => entryWeighs e.2) = L.tasks.values.map weighs := by
    rw [← Option.some.inj hentries, Dict.values, List.map_map, List.map_map]
    refine List.map_congr_left (fun e _ => ?_)
    simp only [Function.comp, entryWeighs, Task.fromDict_toDict]
  rw [hsum]
  exact h

/-- What is loaded adds no more than the entries. -/
theorem loadTasks_weighs (entries : Msg) (acc : Dict Key Task) :
    ((loadTasks entries acc).values.map weighs).sum ≤
      (acc.values.map weighs).sum + (entries.map (fun e => entryWeighs e.2)).sum := by
  induction entries generalizing acc with
  | nil => exact Nat.le_add_right _ _
  | cons e rest ih =>
      rcases e with ⟨k, v⟩
      rw [List.map_cons, List.sum_cons]
      -- The first entry that is no record ends the loading, with what was loaded so far.
      have hstop := Nat.le_add_right (acc.values.map weighs).sum
        (entryWeighs v + (rest.map (fun e => entryWeighs e.2)).sum)
      cases v with
      | dict d =>
          cases hfrom : Task.fromDict d with
          | error err =>
              simp only [loadTasks, hfrom]
              exact hstop
          | ok t =>
              -- A record that is loaded over another one takes its weight out.
              have hset := Dict.sum_values_set weighs acc (.str k) t
              have hrest := ih (acc.set (.str k) t)
              have hentry : entryWeighs (.dict d) = weighs t := by simp only [entryWeighs, hfrom]
              simp only [loadTasks, hfrom]
              rw [hentry]
              omega
      | none => exact hstop
      | bool b => exact hstop
      | int n => exact hstop
      | float q => exact hstop
      | str s => exact hstop
      | list xs => exact hstop

theorem load_timesFit {L : TaskLedger} (h : FileFits L.disk) : TimesFit L.load.tasks := by
  have hle := loadTasks_weighs (L.disk.getD []) Dict.empty
  refine lt_of_le_of_lt (Nat.cast_le.mpr hle) ?_
  have hzero : ((Dict.empty : Dict Key Task).values.map weighs).sum = 0 := rfl
  rw [hzero, Nat.zero_add]
  cases hdisk : L.disk with
  | none =>
      rw [Option.getD_none, List.map_nil, List.sum_nil, Nat.cast_zero]
      exact sub_pos.mpr (pow_lt_pow_right₀ (by norm_num) (by norm_num))
  | some entries => exact h entries hdisk

/-- What is stored, and what is in the file to be loaded, is well typed, and the times
    of either fit. -/
structure Sane (L : TaskLedger) : Prop where
  records : ∀ k t, L.tasks.get? k = some t → WellTyped L.ourKey t
  times : TimesFit L.tasks
  file : StoredAs (fun _ t => WellTyped L.ourKey t) L.disk
  fileTimes : FileFits L.disk

/-- What changes neither the key nor the file more than its records. -/
theorem Sane.kept {L L' : TaskLedger} (hs : Sane L) (hkey : L'.ourKey = L.ourKey)
    (hfile : FileKept L L') (hrecords : ∀ k t, L'.tasks.get? k = some t → WellTyped L.ourKey t)
    (htimes : TimesFit L'.tasks) : Sane L' := by
  rw [← hkey] at hrecords
  refine ⟨hrecords, htimes, stored_of_kept hfile ?_ hrecords, ?_⟩
  · rw [hkey]
    exact hs.file
  · rcases hfile with hsame | hwritten
    · rw [hsame]
      exact hs.fileTimes
    · rw [hwritten]
      exact fileFits_persist htimes

theorem step_sane {P : Primitives} {s s' : WhisperNode} {e : NodeEvent} (hs : Sane s.ledger)
    (hadmits : Admits P s e) (h : s.step P e = some s') : Sane s'.ledger := by
  have hcall : ∀ {L : TaskLedger} (c : Call), Sane L → Sane (c.run P L).1 := fun c hL =>
    hL.kept (run_identity P _ c).1 (run_file P _ c) (run_wellTyped P c hL.records)
      (run_timesFit P c hL.records hL.times)
  -- One case for each way a step can treat the ledger.
  cases step_ledger h with
  | same heq =>
      rw [heq]
      exact hs
  | update env fromPeer msg hevent htype heq =>
      rw [hevent] at hadmits
      rw [heq]
      refine hs.kept (update_identity P _ msg).1 (update_file P _ msg)
        (update_wellTyped P msg hs.records (fun t ht => (hadmits htype t ht).1)) ?_
      rcases update_installs P s.ledger msg with hsame | ⟨t, key, hinst, hkey, hset⟩
      · rw [hsame]
        exact hs.times
      · rw [hset]
        exact (hadmits htype t hinst).2 key hkey
  | submit env taskId payload shardId submitterKey heq =>
      have hrecords := submitRaw_wellTyped P env taskId payload shardId submitterKey hs.records
      rw [heq]
      unfold submitRaw at hrecords ⊢
      cases hkey : hashKey taskId with
      | error e => exact hs
      | ok key =>
          rw [hkey] at hrecords
          refine hs.kept rfl (Or.inr rfl) hrecords ?_
          -- The new record is pending.
          have hset := Dict.sum_values_set weighs s.ledger.tasks key
            (s.ledger.submittedRaw P env taskId payload shardId submitterKey)
          rw [weighs_pending (submittedRaw_fresh ..).1, Nat.add_zero] at hset
          exact lt_of_le_of_lt (Nat.cast_le.mpr hset) hs.times
  | call c heq =>
      rw [heq]
      exact hcall c hs
  | converge consensus hevent heq =>
      rw [heq]
      unfold TaskLedger.converge
      split
      · exact ⟨hs.records, hs.times, hs.file, hs.fileTimes⟩
      · exact hs
  | restart now hevent heq =>
      rw [heq]
      refine hcall (.recoverIdentity now)
        ⟨fun k t ht => ?_, load_timesFit hs.fileTimes, hs.file, hs.fileTimes⟩
      rcases load_filed hs.file k t ht with ⟨_, _, htyped⟩
      exact htyped

/-- A node of any configuration, without a record or a file. -/
def WhisperNode.blank (node : WhisperNode) : WhisperNode :=
  { node with ledger := { node.ledger with tasks := Dict.empty, disk := none } }

/-- If every update taken over carries a well typed record, the ledger serves in
    every state of the run, whatever else arrives and happens. -/
theorem updates_served (P : Primitives) (node : WhisperNode) (es : List NodeEvent)
    (h : Machine.Along (WhisperNode.step P) (Admits P) node.blank es) :
    Machine.Throughout (WhisperNode.step P) (fun s => Serves P s.ledger) node.blank es := by
  have hstart : Sane node.blank.ledger :=
    ⟨fun _ _ ht => (nomatch ht), load_timesFit (L := { node.blank.ledger with disk := none })
      (fun _ hdisk => (nomatch hdisk)), fun _ hdisk => (nomatch hdisk),
      fun _ hdisk => (nomatch hdisk)⟩
  exact Machine.Throughout.mono (fun s hs => serves_of_wellTyped P hs.records hs.times)
    (Machine.throughout_of_along _ (fun s => Sane s.ledger) (Admits P)
      (fun s e s' hs hadmits hstep => step_sane hs hadmits hstep) _ es hstart h)

namespace Wedged

def node : WhisperNode where
  membership := { ourKey := lit "a" }
  ledger := { ourKey := lit "a" }
  runtime := { shardId := 1 }

/-- The update that brings a record. -/
def update (msgId : PyStr) (task : Task) : Msg :=
  [(lit "type", .str (lit "ledger_update")), (lit "msg_id", .str msgId),
   (lit "from", .str (lit "b")), (lit "hops", .int 8), (lit "task", .dict task.toDict)]

/-- A task in progress whose lease expires then. -/
def held (expires : PyVal) : Task where
  taskId := .str (lit "t")
  payload := .str (lit "p")
  shardId := .int 1
  status := .inProgress
  leasedBy := .str (lit "b")
  leaseExpires := expires
  result := .none
  createdAt := .float 0
  version := .int 2

/-- A completed task with integers for its times. -/
def done (completed : Int) : Task where
  taskId := .str (lit "u")
  payload := .str (lit "p")
  shardId := .int 1
  status := .completed
  leasedBy := .str (lit "b")
  leaseExpires := .int 0
  result := .str (lit "r")
  createdAt := .int 0
  version := .int 3
  completedAt := .int completed

/-- After an update whose expiry is a string, every scan raises, and a task of
    this node that is pending is not served. -/
theorem scan_raises : ∃ t, Machine.run (WhisperNode.step reference) node.blank
      [.call (.submitTask .plain (lit "own") (lit "p") 1 .none),
       .receive .plain (.str (lit "b")) (update (lit "1") (held (.str (lit "soon"))))] = some t ∧
    (t.ledger.find? (lit "own")).map Task.status = some .pending ∧
    ∀ now, t.ledger.getClaimableTasks now = .error .typeError := by
  refine ⟨_, rfl, rfl, fun now => rfl⟩

/-- A time beyond all floats does the same to the metrics. -/
example : TaskLedger.getMetrics { node.ledger with
    tasks := Dict.empty.set (.str (lit "u")) (done (10 ^ 400)) } = .error .overflowError := by
  decide +kernel

theorem installs_eq {L : TaskLedger} {msgId : PyStr} {task t : Task}
    (h : Installs reference L (update msgId task) t) : t = task := by
  rcases h with ⟨_, _, _, d, _, hd, hfrom, _⟩
  rw [← PyVal.dict.inj hd, Task.fromDict_toDict, Except.ok.injEq] at hfrom
  exact hfrom.symm

/-- After updates with numbers, of a task in progress and of one completed, the ledger
    serves. -/
theorem number_served : ∃ t, Machine.run (WhisperNode.step reference) node.blank
      [.receive .plain (.str (lit "b")) (update (lit "1") (held (.int 30))),
       .receive .plain (.str (lit "b")) (update (lit "2") (done 50))] = some t ∧
        t.ledger.tasks.values = [held (.int 30), done 50] ∧ Serves reference t.ledger := by
  obtain ⟨s, hs, hkey, hvalues⟩ : ∃ s, node.blank.step reference
      (.receive .plain (.str (lit "b")) (update (lit "1") (held (.int 30)))) = some s ∧
        s.ledger.ourKey = lit "a" ∧ s.ledger.tasks.values = [held (.int 30)] := ⟨_, rfl, rfl, rfl⟩
  obtain ⟨t, ht, hdone⟩ : ∃ t, Machine.run (WhisperNode.step reference) node.blank
      [.receive .plain (.str (lit "b")) (update (lit "1") (held (.int 30))),
       .receive .plain (.str (lit "b")) (update (lit "2") (done 50))] = some t ∧
        t.ledger.tasks.values = [held (.int 30), done 50] := ⟨_, rfl, by decide +kernel⟩
  have hfit : ∀ (L : TaskLedger) (u : Task), (L.tasks.values.map weighs).sum + weighs u ≤ 50 →
      ∀ key, TimesFit (L.tasks.set key u) := by
    intro L u hle key
    refine lt_of_le_of_lt (Nat.cast_le.mpr ((Dict.sum_values_set weighs _ _ _).trans hle)) ?_
    decide +kernel
  have hadmits : Machine.Along (WhisperNode.step reference) (Admits reference) node.blank
      [.receive .plain (.str (lit "b")) (update (lit "1") (held (.int 30))),
       .receive .plain (.str (lit "b")) (update (lit "2") (done 50))] := by
    refine fun s' hs' => ⟨fun _ u hu => ?_, fun s'' _ => ⟨fun _ u hu => ?_, trivial⟩⟩
    · rw [installs_eq hu]
      refine ⟨⟨fun _ => ⟨⟨2, rfl⟩, ⟨0, rfl⟩⟩, fun _ => ⟨⟨30, rfl⟩, fun hc => ?_⟩,
        (fun hc => by cases hc)⟩, fun key _ => hfit _ _ (by decide +kernel) key⟩
      exact absurd (PyVal.str.inj hc) (by decide)
    · -- The second one meets the record of the first.
      rw [installs_eq hu, Option.some.inj (hs'.symm.trans hs)]
      refine ⟨⟨fun hc => ?_, (fun hc => by cases hc), fun _ _ => ⟨.int 50, rfl⟩⟩,
        fun key _ => hfit _ _ ?_ key⟩
      · rw [hkey] at hc
        exact absurd (hc.resolve_left (fun h => h rfl)) (by decide +kernel)
      · rw [hvalues]
        decide +kernel
  exact ⟨t, ht, hdone, (updates_served reference node _ hadmits).last ht⟩

end Wedged

end WhisperNet
