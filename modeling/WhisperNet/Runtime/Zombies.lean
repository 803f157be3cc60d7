import WhisperNet.Crypto.Reference
import WhisperNet.Ledger.Atomicity
import WhisperNet.Runtime.Threads

/-!
# Leases Without an Execution

Whether a lease that the scan loop renews has an execution behind it. A lease
of this node keeps peers from claiming the task, and the node's own scan does
not select it either, so a lease that nobody works on is renewed forever.

The invariant is that every lease is covered: by an execution that has yet to
finish with the record, by the scan loop on its way from the claim to the
thread, or by an award on its way there. A thread that ends gives the lease up
by completing or releasing the record. What can leave a lease uncovered is
outside that pattern, and `Process.Orderly` excludes it: a restart that finds
leases in its file, an execution that raises, an award whose thread finds the
task in `_executing` and returns, a claim that raises after it was written, and
a lease of one's own that comes back by gossip. `renews_executed` says that
without these every renewal finds its execution, and `Restarted.zombie` is the
restart.

## Main definitions

* `Held`: The record of a task is in progress under this node's lease.
* `Process.Engaged`, `Process.Covered`: Somebody works on a task, or will.
* `Process.Sound`: Every lease is covered.
* `Process.Orderly`: The step is none of those that lose a lease.
* `Process.RenewsExecuted`: A renewal finds an execution of its task.

## Theorems

* `held_of_run`: Only a claim makes a lease.
* `not_held_of_callOf`: An execution that does not raise gives its lease up.
* `step_sound`: An orderly step keeps every lease covered.
* `renews_executed`: In an orderly run every renewal finds an execution.
* `Restarted.zombie`: A restarted node renews a lease it does not work on.
-/

namespace WhisperNet

open TaskLedger
open PyVal (get)

/-- The record of a task is in progress under this node's lease. -/
def Held (L : TaskLedger) (taskId : PyStr) : Prop :=
  ∃ t, L.find? taskId = some t ∧ L.isMine t = true

/-- `claim_task` may write to the record of the task. -/
def Claimable (L : TaskLedger) (taskId : PyStr) (now : ℚ) (t : Task) : Prop :=
  L.find? taskId = some t ∧ t.status ≠ .completed ∧
    (t.status = .inProgress → PyVal.lt t.leaseExpires (.float now) = .ok true)

/-- If `claim_task` writes, it does not raise afterwards: the claim has a text
    and the record a version to count up, and the record can be sent. -/
def ClaimSafe (L : TaskLedger) (taskId : PyStr) (now : ℚ) (sends : Bool) : Prop :=
  ∀ t, Claimable L taskId now t → sends = true ∧
    (∃ c, digest16 (commitmentText L.ourKey taskId now) = .ok c) ∧ ∃ v, t.version.incr = .ok v

namespace Process

variable (H : Host) (s : Process)

/-- An execution of the task has been started and has not finished. -/
def Executes (taskId : PyStr) : Prop := ∃ x ∈ s.executions, x.taskId = taskId

/-- The scan loop has claimed the task and is about to start its thread. -/
def Starting (taskId : PyStr) : Prop :=
  ∃ rest, s.scan = .claimed taskId rest ∨ s.scan = .added taskId rest

/-- An execution has yet to finish with the task, or is about to be started by
    the scan loop. -/
def Engaged (taskId : PyStr) : Prop :=
  (∃ x ∈ s.executions, x.taskId = taskId ∧ x.stage ≠ .leaving) ∨ s.Starting taskId

/-- Somebody works on the task, or an award is about to. -/
def Covered (taskId : PyStr) : Prop := s.Engaged taskId ∨ taskId ∈ s.awarded

/-- The steps of a running node that do not leave a lease to nobody. -/
def OrderlyThread : ThreadEvent → Prop
  | .renew _ _ => ∀ taskId rest, s.scan = .renewing (.str taskId :: rest) →
      taskId ∈ s.awarded → s.Engaged taskId
  | .claim now sends => ∀ taskId rest, s.scan = .checked taskId rest →
      ClaimSafe s.ledger taskId now sends
  | .award msg now sends => ∀ taskId, get msg (lit "task_id") = .str taskId →
      ClaimSafe s.ledger taskId now sends
  | .enter taskId => taskId ∈ s.executing → Held s.ledger taskId →
      Covered { s with awarded := s.awarded.erase taskId } taskId
  | .finish i job => ∀ taskId task, s.executions[i]? = some ⟨taskId, .running task⟩ →
      H.callOf taskId task job = none → Held s.ledger taskId →
      Covered { s with executions := s.executions.set i ⟨taskId, .leaving⟩ } taskId
  | .update msg => ∀ t, Installs H.prims s.ledger msg t → ∃ taskId, t.taskId = .str taskId ∧
      (s.ledger.isMine t = true → s.Covered taskId)
  | _ => True

/-- The step leaves no lease to nobody: a restart finds none in its file, no
    renewal falls between an award and its thread, no claim raises once it is
    written, and where an execution raises, an award's thread returns early or
    gossip brings a lease of this node, somebody else works on the task. -/
def Orderly : ProcessEvent → Prop
  | .boot _ _ _ => ∀ taskId, ¬ Held s.ledger.load taskId
  | .crash => True
  | .act a => s.OrderlyThread H a

/-- A renewal finds an execution of its task started and not yet finished. -/
def RenewsExecuted : ProcessEvent → Prop
  | .act (.renew _ _) => ∀ taskId rest, s.scan = .renewing (.str taskId :: rest) →
      Held s.ledger taskId → s.Executes taskId
  | _ => True

/-- Every lease of a running node is covered, and records and file are filed
    under their ids. -/
structure Sound : Prop where
  keys : TextKeys s.ledger
  file : TextFile s.ledger.disk
  covered : s.up = true → ∀ taskId, Held s.ledger taskId → s.Covered taskId

end Process

/-! ## Leases of a ledger -/

theorem held_congr {L L' : TaskLedger} (htasks : L'.tasks = L.tasks) (hkey : L'.ourKey = L.ourKey)
    (taskId : PyStr) : Held L' taskId ↔ Held L taskId := by
  unfold Held find?
  simp only [htasks, isMine_iff, hkey]

/-- Only a claim makes a lease. -/
theorem held_of_run (P : Primitives) (L : TaskLedger) (c : Call) (taskId : PyStr)
    (h : Held (c.run P L).1 taskId) : Held L taskId ∨ ∃ now, c = .claimTask taskId now := by
  rcases h with ⟨t, ht, hm⟩
  rw [isMine_iff, (run_identity P L c).1] at hm
  rcases (run_edits P L c).record (.str taskId) with hsame | ⟨new, hnew, hedit, _⟩
  · refine Or.inl ⟨t, ?_, (isMine_iff L t).mpr hm⟩
    exact hsame.symm.trans ht
  · have heq : new = t := Option.some.inj (hnew.symm.trans ht)
    rw [← heq] at hm
    -- Of the calls that rewrite a record only a claim makes it the node's own.
    cases c with
    | submitTask env taskId' payload shardId submitterKey =>
        rw [hedit.2.2.1] at hm
        exact (nomatch hm.2)
    | claimTask taskId' now =>
        have hid : taskId = taskId' := Key.str.inj hedit.1
        exact Or.inr ⟨now, by rw [hid]⟩
    | renewLease taskId' now =>
        rcases hedit with ⟨_, old, hold, hmine, _⟩
        exact Or.inl ⟨old, hold, hmine⟩
    | completeTask taskId' result now uuid =>
        rcases hedit with ⟨_, old, _, _, hs, _⟩
        rw [hs] at hm
        exact (nomatch hm.2)
    | releaseLease taskId' =>
        rcases hedit with ⟨_, old, _, _, hs, _⟩
        rw [hs] at hm
        exact (nomatch hm.2)
    | releaseAllLeases =>
        rcases hedit with ⟨old, _, _, hs, _⟩
        rw [hs] at hm
        exact (nomatch hm.2)
    | recoverIdentity now =>
        rcases hedit with ⟨old, hold, hmine, _⟩
        exact Or.inl ⟨old, hold, hmine⟩

/-- A call that leaves another's record alone, or takes this node's record out
    of progress, leaves no lease. -/
theorem not_held_of_cases {L : TaskLedger} {o : Outcome Bool} {taskId : PyStr}
    (hkey : o.ledger.ourKey = L.ourKey)
    (h : (L.Idle o ∧ ∀ t, L.find? taskId = some t → t.leasedBy ≠ .str L.ourKey) ∨
      ∃ old new, L.Wrote o taskId old new ∧ new.status ≠ .inProgress) :
    ¬ Held o.ledger taskId := by
  rintro ⟨t, ht, hm⟩
  rw [isMine_iff, hkey] at hm
  rcases h with ⟨hidle, hother⟩ | ⟨old, new, hw, hs⟩
  · have hfound : L.find? taskId = some t :=
      (congrArg (fun d => d.get? (Key.str taskId)) hidle.tasks).symm.trans ht
    exact hother t hfound hm.1
  · have hnow : o.ledger.find? taskId = some new :=
      (congrArg (fun d => d.get? (Key.str taskId)) hw.tasks).trans (Dict.get?_set_self ..)
    have heq : new = t := Option.some.inj (hnow.symm.trans ht)
    exact hs (by rw [heq, hm.2])

/-- A completion ends the lease, whether or not it raises. -/
theorem not_held_of_complete (P : Primitives) (L : TaskLedger) (taskId result : PyStr) (now : ℚ)
    (uuid : PyStr) : ¬ Held ((Call.completeTask taskId result now uuid).run P L).1 taskId := by
  refine not_held_of_cases (run_identity P L (.completeTask taskId result now uuid)).1 ?_
  rcases L.completeTask_cases taskId result now uuid with h | ⟨old, new, hw, _, hs, _⟩
  · exact Or.inl h
  · exact Or.inr ⟨old, new, hw, by rw [hs]; exact nofun⟩

/-- So does a release. -/
theorem not_held_of_release (P : Primitives) (L : TaskLedger) (taskId : PyStr) :
    ¬ Held ((Call.releaseLease taskId).run P L).1 taskId := by
  refine not_held_of_cases (run_identity P L (.releaseLease taskId)).1 ?_
  rcases L.releaseLease_cases taskId with h | ⟨old, new, hw, _, hs, _⟩
  · exact Or.inl h
  · exact Or.inr ⟨old, new, hw, by rw [hs]; exact nofun⟩

/-- An execution that does not raise gives its lease up, and makes none. -/
theorem not_held_of_callOf {H : Host} {taskId : PyStr} {task : Task} {job : Job} {c : Call}
    (h : H.callOf taskId task job = some c) (L : TaskLedger) :
    ¬ Held (c.run H.prims L).1 taskId ∧ ∀ id now, c ≠ .claimTask id now := by
  unfold Host.callOf at h
  split at h
  · exact (nomatch h)
  · rw [Option.some.injEq] at h
    rw [← h]
    exact ⟨not_held_of_release _ L taskId, fun _ _ hc => nomatch hc⟩
  · rw [Option.some.injEq] at h
    rw [← h]
    exact ⟨not_held_of_complete _ L taskId _ _ _, fun _ _ hc => nomatch hc⟩
  · split at h
    · exact (nomatch h)
    · rw [Option.some.injEq] at h
      rw [← h]
      exact ⟨not_held_of_complete _ L taskId _ _ _, fun _ _ hc => nomatch hc⟩

/-- A claim of a free record with a text and a version succeeds. -/
theorem claimTask_ok {L : TaskLedger} {taskId : PyStr} {now : ℚ} {t : Task}
    (hfree : Claimable L taskId now t)
    (htext : ∃ c, digest16 (commitmentText L.ourKey taskId now) = .ok c)
    (hversion : ∃ v, t.version.incr = .ok v) : (L.claimTask taskId now).ret = .ok true := by
  have hencodes := (digest16_ok_iff _).mp htext
  rw [commitmentText_encodable] at hencodes
  exact (claimTask_true_iff L taskId now).mpr
    ⟨t, hfree.1, ⟨hfree.2.1, hfree.2.2⟩, hencodes, (incr_ok_iff t.version).mp hversion⟩

/-- A safe claim leaves the records alone, or makes the lease and says so. -/
theorem claim_of_safe {L : TaskLedger} {taskId : PyStr} {now : ℚ} {sends : Bool}
    (h : ClaimSafe L taskId now sends) :
    ((L.claimTask taskId now).ledger.tasks = L.tasks ∧
      (L.claimTask taskId now).sent sends ≠ .ok true) ∨
      (L.claimTask taskId now).sent sends = .ok true := by
  rcases L.claimTask_cases taskId now with hidle | ⟨old, new, hw, hc, _, hexp, _⟩
  · left
    refine ⟨hidle.tasks, ?_⟩
    unfold Outcome.sent
    rw [if_pos (Or.inr hidle.out)]
    exact hidle.ret
  · right
    have hfree : Claimable L taskId now old := ⟨hw.found, hc, hexp⟩
    rcases h old hfree with ⟨hsends, htext, hversion⟩
    unfold Outcome.sent
    rw [if_pos (Or.inl hsends)]
    exact claimTask_ok hfree htext hversion

/-! ## Covering -/

namespace Process

variable {H : Host} {s s' : Process}

theorem not_starting
    (h : ∀ taskId rest, s.scan ≠ .claimed taskId rest ∧ s.scan ≠ .added taskId rest)
    (taskId : PyStr) : ¬ s.Starting taskId := by
  rintro ⟨rest, hc | hc⟩
  · exact (h taskId rest).1 hc
  · exact (h taskId rest).2 hc

/-- A task stays covered if each of the three that may cover it stays. -/
theorem Covered.mono {taskId : PyStr} (h : s.Covered taskId)
    (hexec : ∀ x ∈ s.executions, x.taskId = taskId → x.stage ≠ .leaving → s'.Covered taskId)
    (hstart : s.Starting taskId → s'.Covered taskId)
    (haward : taskId ∈ s.awarded → s'.Covered taskId) : s'.Covered taskId := by
  rcases h with (⟨x, hx, hid, hstage⟩ | h) | h
  · exact hexec x hx hid hstage
  · exact hstart h
  · exact haward h

theorem covered_of_execution {x : Execution} (hx : x ∈ s.executions) (hstage : x.stage ≠ .leaving) :
    s.Covered x.taskId :=
  Or.inl (Or.inl ⟨x, hx, rfl, hstage⟩)

/-- Changing the ledger and moving the scan on, where it has claimed nothing. -/
theorem Covered.of_scan {taskId : PyStr} (h : s.Covered taskId)
    (hexec : s'.executions = s.executions)
    (haward : s'.awarded = s.awarded) (hstart : ∀ taskId, ¬ s.Starting taskId) :
    s'.Covered taskId := by
  refine h.mono (fun x hx hid hstage => ?_) (fun hc => absurd hc (hstart taskId)) (fun hc => ?_)
  · rw [← hid]
    exact covered_of_execution (by rw [hexec]; exact hx) hstage
  · exact Or.inr (by rw [haward]; exact hc)

/-- A step that makes no lease and keeps leases covered. -/
theorem Sound.next (hs : s.Sound) (hup : s.up = true) (hkeys : TextKeys s'.ledger)
    (hfile : FileKept s.ledger s'.ledger)
    (hheld : ∀ taskId, Held s'.ledger taskId → Held s.ledger taskId ∨ s'.Covered taskId)
    (hkeep : ∀ taskId, Held s'.ledger taskId → s.Covered taskId → s'.Covered taskId) :
    s'.Sound := by
  refine ⟨hkeys, textFile_of_kept hfile hs.file hkeys, fun _ taskId h => ?_⟩
  rcases hheld taskId h with hold | hc
  · exact hkeep taskId h (hs.covered hup taskId hold)
  · exact hc

/-- A step that leaves the ledger alone. -/
theorem Sound.of_ledger (hs : s.Sound) (hup : s.up = true) (hledger : s'.ledger = s.ledger)
    (hkeep : ∀ taskId, Held s.ledger taskId → s.Covered taskId → s'.Covered taskId) : s'.Sound := by
  refine hs.next hup (by rw [hledger]; exact hs.keys) (Or.inl (by rw [hledger]))
    (fun taskId h => Or.inl (by rw [← hledger]; exact h)) (fun taskId h => ?_)
  rw [hledger] at h
  exact hkeep taskId h

/-- A call that makes no lease. -/
theorem Sound.of_call (hs : s.Sound) (hup : s.up = true) {c : Call}
    (hledger : s'.ledger = (c.run H.prims s.ledger).1)
    (hclaim : ∀ taskId now, c ≠ .claimTask taskId now)
    (hkeep : ∀ taskId, Held s'.ledger taskId → s.Covered taskId → s'.Covered taskId) :
    s'.Sound := by
  refine hs.next hup (by rw [hledger]; exact run_textKeys _ _ c hs.keys)
    (by rw [hledger]; exact run_file _ _ c) (fun taskId h => ?_) hkeep
  rw [hledger] at h
  rcases held_of_run _ _ c taskId h with hold | ⟨now, hc⟩
  · exact Or.inl hold
  · exact absurd hc (hclaim taskId now)

/-- A safe claim that covers its task when it succeeds. -/
theorem Sound.of_claim (hs : s.Sound) (hup : s.up = true) {taskId : PyStr} {now : ℚ} {sends : Bool}
    (hsafe : ClaimSafe s.ledger taskId now sends)
    (hledger : s'.ledger = (s.ledger.claimTask taskId now).ledger)
    (hkeep : ∀ id, s.Covered id → s'.Covered id)
    (hclaimed : (s.ledger.claimTask taskId now).sent sends = .ok true → s'.Covered taskId) :
    s'.Sound := by
  have hrun : s'.ledger = ((Call.claimTask taskId now).run reference s.ledger).1 := hledger
  refine hs.next hup (by rw [hrun]; exact run_textKeys _ _ _ hs.keys)
    (by rw [hrun]; exact run_file _ _ _) (fun id h => ?_) (fun id _ => hkeep id)
  rcases claim_of_safe hsafe with ⟨hsame, _⟩ | hok
  · rw [hledger] at h
    have hkey := (run_identity reference s.ledger (.claimTask taskId now)).1
    exact Or.inl ((held_congr hsame hkey id).mp h)
  · rw [hrun] at h
    rcases held_of_run _ _ _ id h with hold | ⟨now', hc⟩
    · exact Or.inl hold
    · have hid : taskId = id := (Call.claimTask.inj hc).1
      rw [← hid]
      exact Or.inr (hclaimed hok)

/-! ## Steps -/

theorem mem_set_or {l : List Execution} {i : Nat} {x y : Execution} (hx : x ∈ l) :
    x ∈ l.set i y ∨ l[i]? = some x := by
  rcases List.mem_iff_getElem?.mp hx with ⟨j, hj⟩
  by_cases hij : i = j
  · rw [hij]
    exact Or.inr hj
  · left
    refine List.mem_iff_getElem?.mpr ⟨j, ?_⟩
    rw [List.getElem?_set_ne hij]
    exact hj

/-- Replacing one execution keeps the tasks of the others covered, and its own
    if the replacement works on it. -/
theorem Covered.of_set {i : Nat} {taskId id : PyStr} {old : Execution} {stage : Stage}
    (h : s.Covered id) (hold : s.executions[i]? = some old) (hid : old.taskId = taskId)
    (hstage : id = taskId → stage ≠ .leaving) :
    Covered { s with executions := s.executions.set i ⟨taskId, stage⟩ } id := by
  refine h.mono (fun x hx hxid hxs => ?_) (fun hc => Or.inl (Or.inr hc)) (fun hc => Or.inr hc)
  by_cases hother : id = taskId
  · rw [hother]
    have hlt : i < s.executions.length := (List.getElem?_eq_some_iff.mp hold).1
    exact covered_of_execution (x := ⟨taskId, stage⟩) (List.mem_set hlt _) (hstage hother)
  · rcases mem_set_or (i := i) (y := ⟨taskId, stage⟩) hx with hmem | hsame
    · rw [← hxid]
      exact covered_of_execution hmem hxs
    · rw [hold, Option.some.injEq] at hsame
      exact absurd (by rw [← hxid, ← hsame, hid]) hother

/-- An execution finds the record of its task if this node holds it. -/
theorem active_of_held (hkeys : TextKeys s.ledger) {taskId : PyStr} (h : Held s.ledger taskId) :
    s.active taskId ≠ [] := by
  rcases h with ⟨t, ht, hm⟩
  rcases hkeys _ t ht with ⟨id, hkey, hid⟩
  have hmem : t ∈ s.active taskId :=
    s.mem_active.mpr ⟨⟨_, ht⟩, hm, by rw [hid, ← Key.str.inj hkey]⟩
  intro hnil
  rw [hnil] at hmem
  exact List.not_mem_nil hmem

theorem enter_sound (hs : s.Sound) (hup : s.up = true) {taskId : PyStr}
    (hok : s.OrderlyThread H (.enter taskId)) : (s.enter taskId).Sound := by
  unfold enter
  by_cases hin : taskId ∈ s.executing
  · simp only [if_pos hin]
    refine hs.of_ledger hup rfl (fun id hheld hc => ?_)
    by_cases hid : id = taskId
    · rw [hid] at hheld ⊢
      exact hok hin hheld
    · refine hc.mono (fun x hx hxid hxs => ?_) (fun hc => Or.inl (Or.inr hc)) (fun hc => ?_)
      · rw [← hxid]
        exact covered_of_execution hx hxs
      · exact Or.inr ((List.mem_erase_of_ne hid).mpr hc)
  · simp only [if_neg hin]
    refine hs.of_ledger hup rfl (fun id hheld hc => ?_)
    refine hc.mono (fun x hx hxid hxs => ?_) (fun hc => Or.inl (Or.inr hc)) (fun hc => ?_)
    · rw [← hxid]
      exact covered_of_execution (List.mem_append_left _ hx) hxs
    · by_cases hid : id = taskId
      · -- The award is now an execution.
        rw [hid]
        exact covered_of_execution (x := ⟨taskId, .settling⟩)
          (List.mem_append_right _ (List.mem_singleton_self _)) nofun
      · exact Or.inr ((List.mem_erase_of_ne hid).mpr hc)

theorem award_sound (hs : s.Sound) (hup : s.up = true) {msg : Msg} {now : ℚ} {sends : Bool}
    (hok : s.OrderlyThread H (.award msg now sends)) : (s.handleTaskAward msg now sends).Sound := by
  unfold handleTaskAward
  split
  · rename_i taskId hid
    split
    · exact hs
    · refine hs.of_claim hup (hok taskId hid) rfl (fun id hc => ?_) (fun hclaimed => ?_)
      · refine hc.mono (fun x hx hxid hxs => ?_) (fun hc => Or.inl (Or.inr hc)) (fun hc => ?_)
        · rw [← hxid]
          exact covered_of_execution hx hxs
        · right
          simp only []
          split
          · exact List.mem_cons_of_mem _ hc
          · exact hc
      · right
        simp only [hclaimed]
        exact List.mem_cons_self ..
  · exact hs

theorem finish_sound (hs : s.Sound) (hup : s.up = true) {i : Nat} {job : Job}
    (hok : s.OrderlyThread H (.finish i job)) (h : s.act H (.finish i job) = some s') :
    s'.Sound := by
  simp only [act] at h
  split at h
  · rename_i taskId task hexec
    rw [Option.some.injEq] at h
    cases hcall : H.callOf taskId task job with
    | none =>
        rw [hcall] at h
        rw [← h]
        refine hs.of_ledger hup rfl (fun id hheld hc => ?_)
        by_cases hid : id = taskId
        · rw [hid] at hheld ⊢
          exact hok taskId task hexec hcall hheld
        · exact hc.of_set hexec rfl (fun hc => absurd hc hid)
    | some c =>
        rw [hcall] at h
        rw [← h]
        rcases not_held_of_callOf hcall s.ledger with ⟨hgone, hclaim⟩
        refine hs.of_call (c := c) hup rfl hclaim (fun id hheld hc => ?_)
        -- The task itself is not held any more.
        refine Covered.of_set hc hexec rfl (fun hid => ?_)
        rw [hid] at hheld
        exact absurd hheld hgone
  · exact (nomatch h)

theorem update_sound (hs : s.Sound) (hup : s.up = true) {msg : Msg}
    (hok : s.OrderlyThread H (.update msg)) :
    Sound { s with ledger := (s.ledger.handleLedgerUpdate H.prims msg).ledger } := by
  have hkey := (update_identity H.prims s.ledger msg).1
  refine hs.next hup ?_ (update_file _ _ _) (fun id hheld => ?_) (fun id _ hc => hc)
  · refine update_textKeys _ _ _ hs.keys (fun t hinst => ?_)
    rcases hok t hinst with ⟨taskId, hid, _⟩
    exact ⟨taskId, hid⟩
  · rcases update_installs H.prims s.ledger msg with hsame | ⟨t, key, hinst, hk, hset⟩
    · exact Or.inl ((held_congr hsame hkey id).mp hheld)
    · rcases hok t hinst with ⟨taskId, hid, hcov⟩
      rw [hid] at hk
      have hkeyStr : Key.str taskId = key := Except.ok.inj hk
      rcases hheld with ⟨t', ht', hm⟩
      unfold find? at ht'
      simp only [hset, ← hkeyStr, Dict.get?_set, Key.str.injEq] at ht'
      rw [isMine_iff, hkey, ← isMine_iff] at hm
      by_cases hsame : id = taskId
      · rw [if_pos hsame, Option.some.injEq] at ht'
        rw [← ht'] at hm
        rw [hsame]
        exact Or.inr (hcov hm)
      · rw [if_neg hsame] at ht'
        exact Or.inl ⟨t', ht', hm⟩

/-- A step of the scan loop that touches neither the ledger nor the executions,
    taken where the loop has claimed nothing. -/
theorem Sound.of_idle_scan (hs : s.Sound) (hup : s.up = true)
    (hscan : ∀ taskId rest, s.scan ≠ .claimed taskId rest ∧ s.scan ≠ .added taskId rest)
    (hledger : s'.ledger = s.ledger) (hexec : s'.executions = s.executions)
    (haward : s'.awarded = s.awarded) : s'.Sound :=
  hs.of_ledger hup hledger (fun _ _ hc => hc.of_scan hexec haward (not_starting hscan))

theorem add_sound (hs : s.Sound) (hup : s.up = true) (h : s.act H .add = some s') : s'.Sound := by
  simp only [act] at h
  split at h
  · rename_i taskId rest hscan
    rw [Option.some.injEq] at h
    rw [← h]
    refine hs.of_ledger hup rfl (fun id _ hc => ?_)
    refine hc.mono (fun x hx hxid hxs => ?_) (fun hstart => ?_) (fun hc => Or.inr hc)
    · rw [← hxid]
      exact covered_of_execution hx hxs
    · -- The loop is still on its way to the thread of the same task.
      rcases hstart with ⟨rest', hc | hc⟩
      · rw [hscan, ScanAt.claimed.injEq] at hc
        exact Or.inl (Or.inr ⟨rest, Or.inr (by rw [hc.1])⟩)
      · rw [hscan] at hc
        exact (nomatch hc)
  · exact (nomatch h)

theorem spawn_sound (hs : s.Sound) (hup : s.up = true) (h : s.act H .spawn = some s') :
    s'.Sound := by
  simp only [act] at h
  split at h
  · rename_i taskId rest hscan
    rw [Option.some.injEq] at h
    rw [← h]
    refine hs.of_ledger hup rfl (fun id _ hc => ?_)
    refine hc.mono (fun x hx hxid hxs => ?_) (fun hstart => ?_) (fun hc => Or.inr hc)
    · rw [← hxid]
      exact covered_of_execution (List.mem_append_left _ hx) hxs
    · -- What the loop was starting is now the last execution.
      rcases hstart with ⟨rest', hc | hc⟩
      · rw [hscan] at hc
        exact (nomatch hc)
      · rw [hscan, ScanAt.added.injEq] at hc
        rw [← hc.1]
        exact covered_of_execution (x := ⟨taskId, .settling⟩)
          (List.mem_append_right _ (List.mem_singleton_self _)) nofun
  · exact (nomatch h)

theorem settle_sound (hs : s.Sound) (hup : s.up = true) {i : Nat}
    (h : s.act H (.settle i) = some s') : s'.Sound := by
  simp only [act] at h
  split at h
  · rename_i taskId hexec
    rw [Option.some.injEq] at h
    rw [← h]
    refine hs.of_ledger hup rfl (fun id hheld hc => hc.of_set hexec rfl (fun hid => ?_))
    rw [hid] at hheld
    split
    · -- The thread gives up only where it finds no record of its own.
      rename_i hnil
      exact absurd hnil (active_of_held hs.keys hheld)
    · exact nofun
  · exact (nomatch h)

theorem leave_sound (hs : s.Sound) (hup : s.up = true) {i : Nat}
    (h : s.act H (.leave i) = some s') : s'.Sound := by
  simp only [act] at h
  split at h
  · rename_i taskId hexec
    rw [Option.some.injEq] at h
    rw [← h]
    refine hs.of_ledger hup rfl (fun id _ hc => ?_)
    refine hc.mono (fun x hx hxid hxs => ?_) (fun hc => Or.inl (Or.inr hc)) (fun hc => Or.inr hc)
    -- The thread that goes had finished with its task, so it covered nothing.
    rcases List.mem_iff_getElem?.mp hx with ⟨j, hj⟩
    have hij : j ≠ i := by
      intro hij
      rw [hij, hexec, Option.some.injEq] at hj
      exact hxs (by rw [← hj])
    rw [← hxid]
    exact covered_of_execution (List.mem_eraseIdx_iff_getElem?.mpr ⟨j, hij, hj⟩) hxs
  · exact (nomatch h)

/-- An orderly step of a running node keeps every lease covered. -/
theorem act_sound (hs : s.Sound) (hup : s.up = true) {a : ThreadEvent} (hok : s.OrderlyThread H a)
    (h : s.act H a = some s') : s'.Sound := by
  cases a with
  | scan now =>
      simp only [act] at h
      split at h
      · rename_i hscan
        split at h
        · rw [Option.some.injEq] at h
          rw [← h]
          exact hs.of_idle_scan hup (by rw [hscan]; exact fun _ _ => ⟨nofun, nofun⟩) rfl rfl rfl
        · rw [Option.some.injEq] at h
          rw [← h]
          exact hs
      · exact (nomatch h)
  | renew now sends =>
      simp only [act] at h
      split at h
      · rename_i taskId rest hscan
        -- A renewal may write, but the lease it writes was already held.
        have hidle := not_starting (s := s) (by rw [hscan]; exact fun _ _ => ⟨nofun, nofun⟩)
        rw [Option.some.injEq] at h
        rw [← h]
        exact hs.of_call (H := H) (c := .renewLease taskId now) hup rfl (fun _ _ => nofun)
          (fun id _ hc => hc.of_scan rfl rfl hidle)
      · exact (nomatch h)
  | select view now =>
      simp only [act] at h
      split at h
      · rename_i hscan
        split at h
        · rw [Option.some.injEq] at h
          rw [← h]
          exact hs.of_idle_scan hup (by rw [hscan]; exact fun _ _ => ⟨nofun, nofun⟩) rfl rfl rfl
        · rw [Option.some.injEq] at h
          rw [← h]
          exact hs.of_idle_scan hup (by rw [hscan]; exact fun _ _ => ⟨nofun, nofun⟩) rfl rfl rfl
      · exact (nomatch h)
  | check =>
      simp only [act] at h
      split at h
      · rename_i hscan
        rw [Option.some.injEq] at h
        rw [← h]
        exact hs.of_idle_scan hup (by rw [hscan]; exact fun _ _ => ⟨nofun, nofun⟩) rfl rfl rfl
      · rename_i hscan
        rw [Option.some.injEq] at h
        rw [← h]
        exact hs.of_idle_scan hup (by rw [hscan]; exact fun _ _ => ⟨nofun, nofun⟩) rfl rfl rfl
      · exact (nomatch h)
  | claim now sends =>
      simp only [act] at h
      split at h
      · rename_i taskId rest hscan
        have hidle := not_starting (s := s) (by rw [hscan]; exact fun _ _ => ⟨nofun, nofun⟩)
        rw [Option.some.injEq] at h
        rw [← h]
        refine hs.of_claim hup (hok taskId rest hscan) rfl
          (fun id hc => hc.of_scan rfl rfl hidle) (fun hclaimed => ?_)
        -- The lease just made is covered by where the loop stands next.
        simp only [hclaimed]
        exact Or.inl (Or.inr ⟨rest, Or.inl rfl⟩)
      · exact (nomatch h)
  | add => exact add_sound hs hup h
  | spawn => exact spawn_sound hs hup h
  | award msg now sends =>
      simp only [act, Option.some.injEq] at h
      rw [← h]
      exact award_sound hs hup hok
  | enter taskId =>
      simp only [act] at h
      split at h
      · rw [Option.some.injEq] at h
        rw [← h]
        exact enter_sound hs hup hok
      · exact (nomatch h)
  | settle i => exact settle_sound hs hup h
  | finish i job => exact finish_sound hs hup hok h
  | leave i => exact leave_sound hs hup h
  | update msg =>
      simp only [act, Option.some.injEq] at h
      rw [← h]
      exact update_sound hs hup hok
  | submit env taskId payload shardId submitterKey =>
      simp only [act, Option.some.injEq] at h
      rw [← h]
      exact hs.of_call (H := H) (c := .submitTask env taskId payload shardId submitterKey) hup rfl
        (fun _ _ => nofun) (fun _ _ hc => hc)
  | releaseAll =>
      simp only [act, Option.some.injEq] at h
      rw [← h]
      exact hs.of_call (H := H) (c := .releaseAllLeases) hup rfl (fun _ _ => nofun)
        (fun _ _ hc => hc)
  | converge consensus =>
      simp only [act, Option.some.injEq] at h
      rw [← h]
      -- Convergence sets the lease duration and leaves the records.
      unfold TaskLedger.converge
      split
      · exact ⟨hs.keys, hs.file, hs.covered⟩
      · exact hs

/-- A restart that finds no lease in its file comes up without one. -/
theorem boot_sound (hs : s.Sound) (leaseDuration renewThreshold now : ℚ)
    (hok : ∀ taskId, ¬ Held s.ledger.load taskId) :
    (s.boot leaseDuration renewThreshold now).Sound := by
  obtain ⟨L, hL⟩ : ∃ L, L = { s.ledger.load with
    leaseDuration := leaseDuration, renewThreshold := renewThreshold } := ⟨_, rfl⟩
  -- The ledger is the recovered one, whether the recovery raises or not.
  have hledger : (s.boot leaseDuration renewThreshold now).ledger =
      ((Call.recoverIdentity now).run reference L).1 := by
    unfold boot
    rw [← hL]
    simp only []
    split
    · rfl
    · rfl
  have hkeys : TextKeys L := by
    rw [hL]
    exact load_textKeys hs.file
  have hkeys' := run_textKeys reference L (.recoverIdentity now) hkeys
  refine ⟨by rw [hledger]; exact hkeys', ?_, fun _ taskId hheld => ?_⟩
  · rw [hledger]
    refine textFile_of_kept (run_file reference L (.recoverIdentity now)) ?_ hkeys'
    rw [hL]
    exact hs.file
  · -- Recovery makes no lease that the file did not hold.
    rw [hledger] at hheld
    rcases held_of_run reference L _ taskId hheld with hold | ⟨_, hc⟩
    · rw [hL] at hold
      exact absurd hold (hok taskId)
    · exact (nomatch hc)

/-- An orderly step keeps every lease covered. -/
theorem step_sound {e : ProcessEvent} (hs : s.Sound) (hok : s.Orderly H e)
    (h : s.step H e = some s') : s'.Sound := by
  cases e with
  | boot leaseDuration renewThreshold now =>
      simp only [step] at h
      split at h
      · exact (nomatch h)
      · rw [Option.some.injEq] at h
        rw [← h]
        exact boot_sound hs leaseDuration renewThreshold now hok
  | crash =>
      simp only [step] at h
      split at h
      · rw [Option.some.injEq] at h
        rw [← h]
        exact ⟨hs.keys, hs.file, fun hup => nomatch hup⟩
      · exact (nomatch h)
  | act a =>
      simp only [step] at h
      split at h
      · rename_i hup
        exact act_sound hs hup hok h
      · exact (nomatch h)

/-- In an orderly step a renewal finds an execution of its task. -/
theorem renews_of_sound {e : ProcessEvent} (hs : s.Sound) (hok : s.Orderly H e)
    (h : s.step H e = some s') : s.RenewsExecuted e := by
  cases e with
  | boot leaseDuration renewThreshold now => trivial
  | crash => trivial
  | act a =>
      have hup : s.up = true := by
        by_contra hdown
        simp only [step, if_neg hdown] at h
        exact (nomatch h)
      cases a with
      | renew now sends =>
          intro taskId rest hscan hheld
          have hidle := not_starting (s := s) (by rw [hscan]; exact fun _ _ => ⟨nofun, nofun⟩)
          have hengaged : s.Engaged taskId := by
            rcases hs.covered hup taskId hheld with hc | haward
            · exact hc
            · exact hok taskId rest hscan haward
          rcases hengaged with ⟨x, hx, hid, _⟩ | hstart
          · exact ⟨x, hx, hid⟩
          · exact absurd hstart (hidle taskId)
      | _ => trivial

end Process

/-- In a run of a node from its first start whose steps are all orderly, every
    renewal finds an execution of its task started and not yet finished. -/
theorem renews_executed (H : Host) (L : TaskLedger) (htasks : L.tasks = Dict.empty)
    (hdisk : L.disk = none) (es : List ProcessEvent)
    (hok : Machine.Along (Process.step H) (Process.Orderly H) { ledger := L } es) :
    Machine.Along (Process.step H) Process.RenewsExecuted { ledger := L } es := by
  refine Machine.along_of_invariant (Process.step H) Process.Sound (Process.Orderly H) _
    (fun _ _ _ hs hok h => Process.step_sound hs hok h)
    (fun _ _ _ hs hok h => Process.renews_of_sound hs hok h) _ es ?_ hok
  refine ⟨fun k t ht => ?_, fun entries hentries => ?_, fun hup => nomatch hup⟩
  · rw [htasks] at ht
    exact (nomatch ht)
  · rw [hdisk] at hentries
    exact (nomatch hentries)

namespace Restarted

/-- A node with home shard 1 and no keys. -/
noncomputable def host : Host where
  prims := reference
  texts := ⟨fun _ => [], fun _ => []⟩
  runtime := { shardId := 1 }
  worker := {}

def ledger : TaskLedger := { ourKey := lit "a" }

/-- The events that `Orderly` does not restrict. -/
def unrestricted : ProcessEvent → Bool
  | .boot .. => false
  | .crash => true
  | .act (.renew ..) => false
  | .act (.claim ..) => false
  | .act (.award ..) => false
  | .act (.enter ..) => false
  | .act (.finish ..) => false
  | .act (.update ..) => false
  | .act _ => true

theorem along_unrestricted (s : Process) (es : List ProcessEvent)
    (h : es.all unrestricted = true) :
    Machine.Along (Process.step host) (Process.Orderly host) s es := by
  refine Machine.along_of_forall _ _ s es (fun e he u => ?_)
  have hfree := List.all_eq_true.mp h e he
  cases e with
  | boot leaseDuration renewThreshold now => exact (nomatch hfree)
  | crash => trivial
  | act a =>
      cases a with
      | renew now sends => exact (nomatch hfree)
      | claim now sends => exact (nomatch hfree)
      | award msg now sends => exact (nomatch hfree)
      | enter taskId => exact (nomatch hfree)
      | finish i job => exact (nomatch hfree)
      | update msg => exact (nomatch hfree)
      | _ => trivial

def boot : List ProcessEvent := [.boot 30 15 0]

/-- The node gets a task of its own shard, and a scan selects it. -/
def selected : List ProcessEvent :=
  [.act (.submit SubmitEnv.plain (lit "t") (lit "p") 1 .none), .act (.scan 1),
   .act (.select none 1), .act .check]

def claim : List ProcessEvent := [.act (.claim 1 true)]

/-- The scan starts the thread and ends, and the next one finds a lease to
    renew. -/
def started : List ProcessEvent := [.act .add, .act .spawn, .act .check, .act (.scan 20)]

/-- Whether a claim at the point the scan has reached is safe. -/
def safeClaim (now : ℚ) (s : Process) : Bool :=
  match s.scan with
  | .checked taskId _ =>
    (digest16 (commitmentText s.ledger.ourKey taskId now)).isOk &&
      (s.ledger.find? taskId).all (fun t => t.version.incr.isOk)
  | _ => true

theorem orderly_of_safeClaim {now : ℚ} {s : Process} (h : safeClaim now s = true) :
    s.Orderly host (.act (.claim now true)) := by
  intro taskId rest hscan t hfree
  unfold safeClaim at h
  rw [hscan] at h
  simp only [Bool.and_eq_true, hfree.1, Option.all_some] at h
  exact ⟨rfl, exists_of_isOk h.1, exists_of_isOk h.2⟩

/-- The node renews the lease of the task while it executes it. -/
theorem renewed_executed :
    Machine.Along (Process.step host) Process.RenewsExecuted { ledger := ledger }
      (boot ++ selected ++ claim ++ started ++ [.act (.renew 20 true)]) := by
  refine renews_executed host ledger rfl rfl _ ?_
  have hstart : Machine.Along (Process.step host) (Process.Orderly host) { ledger := ledger }
      boot := fun s' _ => ⟨fun taskId ⟨t, ht, _⟩ => (nomatch ht), trivial⟩
  have hselected := Machine.along_append hstart (fun s _ => along_unrestricted s selected rfl)
  have hclaimed : Machine.Along (Process.step host) (Process.Orderly host) { ledger := ledger }
      (boot ++ selected ++ claim) := by
    refine Machine.along_append hselected (fun s hs => fun s' _ => ⟨?_, trivial⟩)
    have hsafe : (Machine.run (Process.step host) { ledger := ledger } (boot ++ selected)).all
        (safeClaim 1) = true := by decide +kernel
    rw [hs] at hsafe
    exact orderly_of_safeClaim hsafe
  refine Machine.along_append (Machine.along_append hclaimed
    (fun s _ => along_unrestricted s started rfl)) (fun s hs => fun s' _ => ⟨?_, trivial⟩)
  have hnone : (Machine.run (Process.step host) { ledger := ledger }
      (boot ++ selected ++ claim ++ started)).all (fun s => s.awarded.isEmpty) = true := by
    decide +kernel
  rw [hs] at hnone
  intro taskId rest _ hin
  rw [List.isEmpty_iff.mp hnone] at hin
  exact (List.not_mem_nil hin).elim

/-- The node dies while it executes the task, comes back and finds the lease in
    its file. -/
def restarted : List ProcessEvent := [.crash, .boot 30 15 25, .act (.scan 50)]

/-- The scan is about to renew a lease, and no execution is under way. -/
def idle (s : Process) : Bool :=
  match s.scan with
  | .renewing (.str taskId :: _) =>
    (s.ledger.find? taskId).any (fun t => s.ledger.isMine t) && s.executions.isEmpty
  | _ => false

theorem not_renewsExecuted_of_idle {s : Process} {now : ℚ} {sends : Bool} (h : idle s = true) :
    ¬ s.RenewsExecuted (.act (.renew now sends)) := by
  unfold idle at h
  split at h
  · rename_i taskId rest hscan
    simp only [Bool.and_eq_true, Option.any_eq_true] at h
    rcases h.1 with ⟨t, ht, hm⟩
    intro hexec
    rcases hexec taskId rest hscan ⟨t, ht, hm⟩ with ⟨x, hx, _⟩
    rw [List.isEmpty_iff.mp h.2] at hx
    exact List.not_mem_nil hx
  · exact (nomatch h)

/-- The restarted node renews the lease, and nothing executes the task. -/
theorem zombie :
    ¬ Machine.Along (Process.step host) Process.RenewsExecuted { ledger := ledger }
      (boot ++ selected ++ claim ++ started ++ restarted ++ [.act (.renew 50 true)]) := by
  intro halong
  have hidle : (Machine.run (Process.step host) { ledger := ledger }
      (boot ++ selected ++ claim ++ started ++ restarted)).any
        (fun s => idle s && (s.step host (.act (.renew 50 true))).isSome) = true := by
    decide +kernel
  rcases (Option.any_eq_true ..).mp hidle with ⟨s, hs, hcheck⟩
  rw [Bool.and_eq_true] at hcheck
  rcases Option.isSome_iff_exists.mp hcheck.2 with ⟨s', hs'⟩
  exact not_renewsExecuted_of_idle hcheck.1 (halong.at_last hs hs')

end Restarted

end WhisperNet
