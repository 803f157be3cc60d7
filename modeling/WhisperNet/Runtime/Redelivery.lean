import WhisperNet.Crypto.Reference
import WhisperNet.Ledger.Atomicity
import WhisperNet.Ledger.Restart
import WhisperNet.Membership.Outreach
import WhisperNet.Runtime.Node

/-!
# Redelivery

What a message does to the ledger when it arrives a second time. Only three of
the ten types reach the ledger. A `ledger_update` carries an id that the ledger
remembers, so within fewer than a thousand other gossip messages it is dropped.
A `task_submit` and a `task_award` carry an id that nobody looks at: the first
writes its record anew, whatever has become of the task since, and the second
claims the task again if it has become claimable.

`redelivery_iff` is exact. It lists what the second delivery may not meet.

## Main definitions

* `standing`: Status, holder, version and result of the record of a key.
* `Resets`: The submission overwrites a record that is no longer a fresh one.
* `Reclaims`: The award claims its task.
* `Reinstates`: The update installs a record that stands differently.
* `Disturbs`: What the second delivery of a message changes.

## Theorems

* `update_standing_iff`, `submit_standing_iff`, `award_standing_iff`: When that
  changes how a task stands.
* `recent_run`: An id is remembered over fewer than a thousand messages.
* `redelivery_iff`: When a second delivery is harmless.
* `Twice.reset`: A submission that arrives twice undoes a completed task.
-/

namespace WhisperNet

open MembershipLayer TaskLedger WhisperNode
open PyVal (get getD)

/-- How the task of a key stands: status, holder, version and result. -/
def standing (L : TaskLedger) (k : Key) : Option (Status × PyVal × PyVal × PyVal) :=
  (L.tasks.get? k).map (fun t => (t.status, t.leasedBy, t.version, t.result))

/-- The submission goes through, and the record of its key does not stand as a
    fresh one. -/
def Resets (P : Primitives) (s : WhisperNode) (env : NodeEnv) (msg : Msg) : Prop :=
  ∃ taskId payload shardId submitterKey submitEnv k,
    readSubmission msg = .ok (taskId, payload, shardId, submitterKey) ∧
      s.submitEnv P env shardId = .ok submitEnv ∧ hashKey taskId = .ok k ∧
      standing s.ledger k ≠ some (.pending, .none, .int 1, .none)

/-- The award is for us and its task is claimable, and if we hold it then the
    claim does not raise and counts the version up to another one. -/
def Reclaims (s : WhisperNode) (env : NodeEnv) (msg : Msg) : Prop :=
  ∃ taskId task, get msg (lit "task_id") = .str taskId ∧ taskId ≠ [] ∧
    get msg (lit "winner") = .str s.membership.ourKey ∧ s.ledger.find? taskId = some task ∧
    task.status ≠ .completed ∧
    (task.status = .inProgress → PyVal.lt task.leaseExpires (.float env.member.now) = .ok true) ∧
    (s.ledger.isMine task = true →
      (∃ c, digest16 (commitmentText s.ledger.ourKey taskId env.member.now) = .ok c) ∧
        ∃ v, task.version.incr = .ok v ∧ v ≠ task.version)

/-- The update installs a record that stands differently from the one held. -/
def Reinstates (P : Primitives) (L : TaskLedger) (msg : Msg) : Prop :=
  ∃ t k, Installs P L msg t ∧ hashKey t.taskId = .ok k ∧
    standing L k ≠ some (t.status, t.leasedBy, t.version, t.result)

/-! ## When they change how a task stands -/

/-- Filing a record changes how its key stands, unless it stood like that. -/
theorem standing_set_iff (L : TaskLedger) {L' : TaskLedger} {k : Key} {t : Task}
    (htasks : L'.tasks = L.tasks.set k t) :
    (∀ k', standing L' k' = standing L k') ↔
      standing L k = some (t.status, t.leasedBy, t.version, t.result) := by
  have hself : standing L' k = some (t.status, t.leasedBy, t.version, t.result) := by
    unfold standing
    rw [htasks, Dict.get?_set_self]
    rfl
  constructor
  · intro h
    rw [← h k, hself]
  · intro h k'
    by_cases hk : k' = k
    · rw [hk, hself, h]
    · unfold standing
      rw [htasks, Dict.get?_set_of_ne _ _ _ _ hk]

theorem standing_of_tasks {L L' : TaskLedger} (htasks : L'.tasks = L.tasks) (k : Key) :
    standing L' k = standing L k := by
  unfold standing
  rw [htasks]

/-- An update that is not dropped and wins the merge is installed. -/
theorem installs_set {P : Primitives} {L : TaskLedger} {msg : Msg} {t : Task} {k : Key}
    (h : Installs P L msg t) (hk : hashKey t.taskId = .ok k) :
    (L.handleLedgerUpdate P msg).ledger.tasks = L.tasks.set k t := by
  rcases h with ⟨hid, hnew, hverify, d, key, hd, ht, hkey, haccepts⟩
  have hkk : key = k := Except.ok.inj (hkey.symm.trans hk)
  have htruthy : (PyVal.dict d).truthy = true := by
    cases d with
    | nil => exact (nomatch ht)
    | cons e d => rfl
  have hdrop : ¬ ((get msg (lit "msg_id")).truthy = false ∨
      pyIn (get msg (lit "msg_id")) L.seenIds.items = true) := by
    rw [hid, hnew]
    simp only [Bool.true_eq_false, Bool.false_eq_true, or_self, not_false_eq_true]
  unfold handleLedgerUpdate handleFresh
  rw [if_neg hdrop]
  simp only [hverify, hd, htruthy, ht, hkey, Bool.true_eq_false, if_false]
  rcases mergeTask_cases { L with seenIds := L.seenIds.append (get msg (lit "msg_id")) } msg key t
    with ⟨_, hrejects, _⟩ | ⟨hset, _⟩
  · exact absurd haccepts hrejects
  · rw [hset, hkk]

theorem update_standing_iff (P : Primitives) (L : TaskLedger) (msg : Msg) :
    (∀ k, standing (L.handleLedgerUpdate P msg).ledger k = standing L k) ↔
      ¬ Reinstates P L msg := by
  constructor
  · rintro h ⟨t, k, hinst, hk, hdiff⟩
    exact hdiff ((standing_set_iff L (installs_set hinst hk)).mp h)
  · intro h
    rcases update_installs P L msg with hsame | ⟨t, k, hinst, hk, hset⟩
    · exact standing_of_tasks hsame
    · refine (standing_set_iff L hset).mpr ?_
      by_contra hdiff
      exact h ⟨t, k, hinst, hk, hdiff⟩

/-- A submission stands as a fresh record. -/
theorem submittedRaw_standing (L : TaskLedger) (P : Primitives) (env : SubmitEnv)
    (taskId payload : PyVal) (shardId : Int) (submitterKey : PyVal) :
    (L.submittedRaw P env taskId payload shardId submitterKey).status = .pending ∧
      (L.submittedRaw P env taskId payload shardId submitterKey).leasedBy = .none ∧
      (L.submittedRaw P env taskId payload shardId submitterKey).version = .int 1 ∧
      (L.submittedRaw P env taskId payload shardId submitterKey).result = .none := by
  cases payload with
  | str text => exact ⟨rfl, rfl, rfl, rfl⟩
  | none => exact ⟨rfl, rfl, rfl, rfl⟩
  | bool b => exact ⟨rfl, rfl, rfl, rfl⟩
  | int n => exact ⟨rfl, rfl, rfl, rfl⟩
  | float q => exact ⟨rfl, rfl, rfl, rfl⟩
  | list xs => exact ⟨rfl, rfl, rfl, rfl⟩
  | dict kvs => exact ⟨rfl, rfl, rfl, rfl⟩

theorem submit_standing_iff (P : Primitives) (s : WhisperNode) (env : NodeEnv) (msg : Msg) :
    (∀ k, standing (s.handleP2pTaskSubmit P env msg).1.ledger k = standing s.ledger k) ↔
      ¬ Resets P s env msg := by
  have hidle : (s.handleP2pTaskSubmit P env msg).1.ledger = s.ledger → ¬ Resets P s env msg →
      ((∀ k, standing (s.handleP2pTaskSubmit P env msg).1.ledger k = standing s.ledger k) ↔
        ¬ Resets P s env msg) := fun hsame hno =>
    ⟨fun _ => hno, fun _ k => by rw [hsame]⟩
  -- Where the message is no submission, nothing is written and nothing is reset.
  cases hread : readSubmission msg with
  | error e =>
      refine hidle (by unfold handleP2pTaskSubmit submission; rw [hread]) ?_
      rintro ⟨_, _, _, _, _, _, hc, _⟩
      rw [hread] at hc
      simp only [reduceCtorEq] at hc
  | ok fields =>
      rcases fields with ⟨taskId, payload, shardId, submitterKey⟩
      cases henv : s.submitEnv P env shardId with
      | error e =>
          refine hidle (by unfold handleP2pTaskSubmit submission; rw [hread]; simp only [henv]) ?_
          rintro ⟨_, _, _, _, _, _, hc, hc', _⟩
          rw [hread, Except.ok.injEq, Prod.mk.injEq, Prod.mk.injEq, Prod.mk.injEq] at hc
          rw [← hc.2.2.1, henv] at hc'
          simp only [reduceCtorEq] at hc'
      | ok submitEnv =>
          have hrun : (s.handleP2pTaskSubmit P env msg).1.ledger =
              (s.ledger.submitRaw P submitEnv taskId payload shardId submitterKey).ledger := by
            unfold handleP2pTaskSubmit submission
            rw [hread]
            simp only [henv]
          cases hk : hashKey taskId with
          | error e =>
              refine hidle (by rw [hrun]; unfold submitRaw; rw [hk]) ?_
              rintro ⟨_, _, _, _, _, _, hc, _, hc', _⟩
              rw [hread, Except.ok.injEq, Prod.mk.injEq] at hc
              rw [← hc.1, hk] at hc'
              simp only [reduceCtorEq] at hc'
          | ok k =>
              -- Here a record is written, so its standing decides.
              have hset : (s.handleP2pTaskSubmit P env msg).1.ledger.tasks = s.ledger.tasks.set k
                  (s.ledger.submittedRaw P submitEnv taskId payload shardId submitterKey) := by
                rw [hrun]
                unfold submitRaw
                rw [hk]
                rfl
              rcases submittedRaw_standing s.ledger P submitEnv taskId payload shardId submitterKey
                with ⟨hst, hholder, hversion, hresult⟩
              rw [standing_set_iff s.ledger hset, hst, hholder, hversion, hresult]
              constructor
              · rintro h ⟨taskId', _, _, _, _, k', hread', _, hk', hdiff⟩
                rw [hread, Except.ok.injEq, Prod.mk.injEq] at hread'
                rw [← hread'.1, hk, Except.ok.injEq] at hk'
                rw [← hk'] at hdiff
                exact hdiff h
              · intro h
                by_contra hdiff
                exact h ⟨taskId, payload, shardId, submitterKey, submitEnv, k, hread, henv, hk,
                  hdiff⟩

/-- A claim of a free task writes its record. The version counts up only if the
    digest and the version can be computed. -/
theorem claimTask_wrote {L : TaskLedger} {taskId : PyStr} {task : Task} {now : ℚ}
    (hf : L.find? taskId = some task) (hc : task.status ≠ .completed)
    (hexp : task.status = .inProgress → PyVal.lt task.leaseExpires (.float now) = .ok true) :
    ∃ new, (L.claimTask taskId now).ledger.tasks = L.tasks.set (.str taskId) new ∧
      new.status = .inProgress ∧ new.leasedBy = .str L.ourKey ∧ new.result = task.result ∧
      ((∃ c v, digest16 (commitmentText L.ourKey taskId now) = .ok c ∧
          task.version.incr = .ok v ∧ new.version = v) ∨
        new.version = task.version ∧
          ¬ ((∃ c, digest16 (commitmentText L.ourKey taskId now) = .ok c) ∧
            ∃ v, task.version.incr = .ok v)) := by
  rcases counted_fields L task with ⟨htasks, hkey⟩
  rw [claimTask_free hf ⟨hc, hexp⟩]
  unfold claimFree put persist
  rw [htasks, hkey]
  cases hd : digest16 (commitmentText L.ourKey taskId now) with
  | error e => exact ⟨_, rfl, rfl, rfl, rfl, Or.inr ⟨rfl, fun h => nomatch h.1.choose_spec⟩⟩
  | ok c =>
      cases hv : task.version.incr with
      | error e =>
          simp only [hv]
          exact ⟨_, rfl, rfl, rfl, rfl, Or.inr ⟨rfl, fun h => nomatch h.2.choose_spec⟩⟩
      | ok v =>
          simp only [hv]
          exact ⟨_, rfl, rfl, rfl, rfl, Or.inl ⟨c, v, rfl, rfl, rfl⟩⟩

theorem award_standing_iff (P : Primitives) (s : WhisperNode) (env : NodeEnv) (msg : Msg) :
    (∀ k, standing (s.handleTaskAward P env msg).1.ledger k = standing s.ledger k) ↔
      ¬ Reclaims s env msg := by
  have hstands : ∀ {taskId task}, s.ledger.find? taskId = some task →
      standing s.ledger (.str taskId) =
        some (task.status, task.leasedBy, task.version, task.result) := fun hf => by
    unfold standing
    rw [show s.ledger.tasks.get? (.str _) = some _ from hf]
    rfl
  constructor
  · rintro h ⟨taskId, task, hid, hne, hwin, hf, hc, hexp, hmine⟩
    have hrun : (s.handleTaskAward P env msg).1.ledger =
        (s.ledger.claimTask taskId env.member.now).ledger := by
      unfold handleTaskAward
      rw [hid]
      simp only [hne, hwin, ne_eq, not_true_eq_false, or_self, if_false]
    rcases claimTask_wrote hf hc hexp with ⟨new, hset, hstatus, hholder, hresult, hversion⟩
    rw [← hrun] at hset
    have hsame := (standing_set_iff s.ledger hset).mp h
    rw [hstands hf, Option.some.injEq, Prod.mk.injEq, Prod.mk.injEq, Prod.mk.injEq] at hsame
    -- The holder was this node already, so the claim went through and counted up.
    have hm : s.ledger.isMine task = true :=
      (s.ledger.isMine_iff task).mpr ⟨hsame.2.1.trans hholder, hsame.1.trans hstatus⟩
    rcases hmine hm with ⟨hdigest, v, hv, hdiff⟩
    rcases hversion with ⟨_, v', _, hv', hnew⟩ | ⟨_, hfails⟩
    · refine hdiff ?_
      rw [Except.ok.inj (hv.symm.trans hv'), ← hnew, hsame.2.2.1]
    · exact hfails ⟨hdigest, v, hv⟩
  · intro hno k
    unfold handleTaskAward
    split
    · rename_i taskId hid
      by_cases hours : taskId = [] ∨ get msg (lit "winner") ≠ .str s.membership.ourKey
      · rw [if_pos hours]
      · rw [if_neg hours]
        simp only [not_or, not_not] at hours
        rcases s.ledger.claimTask_cases taskId env.member.now with
          hidle | ⟨task, _, hw, hc, _, hexp, _⟩
        · exact standing_of_tasks hidle.tasks k
        · rcases claimTask_wrote hw.found hc hexp with
            ⟨new, hset, hstatus, hholder, hresult, hversion⟩
          refine (standing_set_iff s.ledger hset).mpr ?_ k
          by_cases hm : s.ledger.isMine task = true
          · rcases (s.ledger.isMine_iff task).mp hm with ⟨hholds, hprogress⟩
            have hsame : new.version = task.version := by
              rcases hversion with ⟨c, v, hd, hv, hnew⟩ | ⟨hkept, _⟩
              · rw [hnew]
                by_contra hdiff
                exact hno ⟨taskId, task, hid, hours.1, hours.2, hw.found, hc, hexp,
                  fun _ => ⟨⟨c, hd⟩, v, hv, hdiff⟩⟩
              · exact hkept
            rw [hstands hw.found, hstatus, hholder, hsame, hresult, hprogress, hholds]
          · exact absurd ⟨taskId, task, hid, hours.1, hours.2, hw.found, hc, hexp,
              fun hm' => absurd hm' hm⟩ hno
    · rfl

/-! ## Over the steps between two deliveries -/

/-- The event is a gossip message that arrives. -/
def NodeEvent.gossips : NodeEvent → Bool
  | .receive _ _ msg => isGossip msg
  | _ => false

def NodeEvent.restarts : NodeEvent → Bool
  | .restart _ => true
  | _ => false

/-- Only a gossip message adds to the cache, and it adds one id. -/
theorem step_seenIds {P : Primitives} {s s' : WhisperNode} {e : NodeEvent}
    (h : s.step P e = some s') (hr : e.restarts = false) :
    s'.ledger.seenIds = s.ledger.seenIds ∨
      e.gossips = true ∧ ∃ v, s'.ledger.seenIds = s.ledger.seenIds.append v := by
  -- Of the ways a step can treat the ledger only an update notes an id.
  cases step_ledger h with
  | same heq => exact Or.inl (congrArg TaskLedger.seenIds heq)
  | update env fromPeer msg hevent hupdate heq =>
      rcases update_merged P s.ledger msg with ⟨_, _, hmerged⟩
      rw [heq, hmerged]
      simp only [noted]
      split
      · exact Or.inl rfl
      · refine Or.inr ⟨?_, _, rfl⟩
        rw [hevent]
        change (isMembership msg || pyEq (get msg (lit "type")) (.str (lit "ledger_update"))) = true
        rw [(pyEq_str _ _).mpr hupdate, Bool.or_true]
  | submit env taskId payload shardId submitterKey heq =>
      left
      rw [heq]
      unfold submitRaw
      cases hashKey taskId with
      | error e => rfl
      | ok k => rfl
  | call c heq =>
      rcases run_worked P s.ledger c with ⟨_, _, _, hw⟩
      rw [heq, hw]
      exact Or.inl rfl
  | converge consensus hevent heq =>
      left
      rw [heq]
      unfold TaskLedger.converge
      split
      · rfl
      · rfl
  | restart now hevent heq =>
      rw [hevent] at hr
      exact (nomatch hr)

/-- An id is remembered over fewer messages than the cache has room for. -/
theorem recent_run {P : Primitives} {s t : WhisperNode} {es : List NodeEvent} {v : PyVal} {j : Nat}
    (h : s.ledger.seenIds.Recent v j) (hfew : es.countP NodeEvent.gossips + j < 1000)
    (hr : es.any NodeEvent.restarts = false)
    (hrun : Machine.run (WhisperNode.step P) s es = some t) : v ∈ t.ledger.seenIds.items := by
  induction es generalizing s j with
  | nil =>
      simp only [Machine.run, Option.some.injEq] at hrun
      rw [← hrun]
      exact h.mem
  | cons e es ih =>
      rcases Option.bind_eq_some_iff.mp hrun with ⟨s', hs, hrest⟩
      rw [List.any_cons, Bool.or_eq_false_iff] at hr
      rcases step_seenIds hs hr.1 with hsame | ⟨hgossip, w, happend⟩
      · have hle : es.countP NodeEvent.gossips ≤ (e :: es).countP NodeEvent.gossips :=
          (List.sublist_cons_self e es).countP_le
        exact ih (hsame ▸ h) (by omega) hr.2 hrest
      · rw [List.countP_cons_of_pos hgossip] at hfew
        have hroom : j + 1 < seenCacheSize := by
          unfold seenCacheSize
          omega
        exact ih (happend ▸ h.append w hroom) (by omega) hr.2 hrest

/-- What the second delivery of a message changes: the record of a task that was
    submitted, or awarded, or that an update carries which the ledger has
    forgotten because it had seen it before the first delivery or was restarted
    since. -/
def Disturbs (P : Primitives) (s : WhisperNode) (es : List NodeEvent) (t : WhisperNode)
    (env : NodeEnv) (msg : Msg) : Prop :=
  get msg (lit "type") = .str (lit "task_submit") ∧ Resets P t env msg ∨
  get msg (lit "type") = .str (lit "task_award") ∧ Reclaims t env msg ∨
  get msg (lit "type") = .str (lit "ledger_update") ∧
    (pyIn (get msg (lit "msg_id")) s.ledger.seenIds.items = true ∨
      es.any NodeEvent.restarts = true) ∧ Reinstates P t.ledger msg

/-- A second delivery after fewer than a thousand other gossip messages leaves
    every task as it stands, exactly if it rewrites nothing. -/
theorem redelivery_iff (P : Primitives) {s t : WhisperNode} (env env' : NodeEnv)
    (fromPeer fromPeer' : PyVal) (msg : Msg) (es : List NodeEvent)
    (hfew : es.countP NodeEvent.gossips < 1000)
    (hrun : Machine.run (WhisperNode.step P) (s.receive P env fromPeer msg).1 es = some t) :
    (∀ k, standing (t.receive P env' fromPeer' msg).1.ledger k = standing t.ledger k) ↔
      ¬ Disturbs P s es t env' msg := by
  have hapart : ∀ {a b : PyStr}, get msg (lit "type") = .str a → a ≠ b →
      get msg (lit "type") ≠ .str b := fun ha hab hb => hab (PyVal.str.inj (ha.symm.trans hb))
  unfold Disturbs
  by_cases hupdate : get msg (lit "type") = .str (lit "ledger_update")
  · rw [receive_update P t env' fromPeer' hupdate, update_standing_iff]
    constructor
    · rintro h (⟨hc, _⟩ | ⟨hc, _⟩ | ⟨_, _, hreinstates⟩)
      · exact hapart hupdate (by decide) hc
      · exact hapart hupdate (by decide) hc
      · exact h hreinstates
    · intro h hreinstates
      refine h (Or.inr (Or.inr ⟨hupdate, ?_, hreinstates⟩))
      -- Otherwise the first delivery noted the id, and it is still there.
      by_contra hnew
      simp only [not_or, Bool.not_eq_true] at hnew
      rcases hreinstates with ⟨_, _, ⟨htruthy, hunseen, _⟩, _⟩
      have hnoted : (s.receive P env fromPeer msg).1.ledger.seenIds =
          s.ledger.seenIds.append (get msg (lit "msg_id")) := by
        rcases update_merged P s.ledger msg with ⟨_, _, hmerged⟩
        rw [receive_update P s env fromPeer hupdate, hmerged]
        simp only [noted, htruthy, hnew.1, Bool.true_eq_false, Bool.false_eq_true, or_self,
          if_false]
      have hrecent : (s.receive P env fromPeer msg).1.ledger.seenIds.Recent
          (get msg (lit "msg_id")) 0 := by
        rw [hnoted]
        exact s.ledger.seenIds.recent_append_self _ (by decide)
      have hmem := recent_run hrecent (by omega) hnew.2 hrun
      have hin : pyIn (get msg (lit "msg_id")) t.ledger.seenIds.items = true :=
        List.any_eq_true.mpr ⟨_, hmem, pyEq_refl _⟩
      rw [hin] at hunseen
      exact Bool.noConfusion hunseen
  · by_cases hsubmit : get msg (lit "type") = .str (lit "task_submit")
    · rw [receive_submit P t env' fromPeer' hsubmit, submit_standing_iff]
      constructor
      · rintro h (⟨_, hresets⟩ | ⟨hc, _⟩ | ⟨hc, _⟩)
        · exact h hresets
        · exact hapart hsubmit (by decide) hc
        · exact hupdate hc
      · exact fun h hresets => h (Or.inl ⟨hsubmit, hresets⟩)
    · by_cases haward : get msg (lit "type") = .str (lit "task_award")
      · rw [receive_award P t env' fromPeer' haward, award_standing_iff]
        constructor
        · rintro h (⟨hc, _⟩ | ⟨_, hreclaims⟩ | ⟨hc, _⟩)
          · exact hsubmit hc
          · exact h hreclaims
          · exact hupdate hc
        · exact fun h hreclaims => h (Or.inr (Or.inl ⟨haward, hreclaims⟩))
      · rw [receive_other P t env' fromPeer' hupdate hsubmit haward]
        constructor
        · rintro _ (⟨hc, _⟩ | ⟨hc, _⟩ | ⟨hc, _⟩)
          · exact hsubmit hc
          · exact haward hc
          · exact hupdate hc
        · exact fun _ _ => rfl

/-! ## A submission that arrives twice -/

namespace Twice

def node : WhisperNode where
  membership := { ourKey := lit "a" }
  ledger := { ourKey := lit "a" }
  runtime := { shardId := 1 }

def env : NodeEnv where
  member := MemberEnv.plain
  uuid := lit "id"
  thresholdRand := SubmitEnv.plain.thresholdRand
  payloadRand := SubmitEnv.plain.payloadRand

def submission : Msg :=
  [(lit "type", .str (lit "task_submit")), (lit "msg_id", .str (lit "1")),
   (lit "from", .str (lit "c")), (lit "task_id", .str (lit "t")),
   (lit "payload", .str (lit "p")), (lit "shard_id", .int 1)]

/-- The task is claimed and completed. -/
def work : List NodeEvent :=
  [.call (.claimTask (lit "t") 1), .call (.completeTask (lit "t") (lit "r") 2 (lit "id"))]

/-- The second delivery makes the completed task pending again. -/
theorem reset : ∃ t, Machine.run (WhisperNode.step reference)
      (node.receive reference env (.str (lit "c")) submission).1 work = some t ∧
    standing t.ledger (.str (lit "t")) =
      some (.completed, .str (lit "a"), .int 3, .str (lit "r")) ∧
    standing (t.receive reference env (.str (lit "c")) submission).1.ledger (.str (lit "t")) =
      some (.pending, .none, .int 1, .none) := by
  obtain ⟨t, ht⟩ : ∃ t, Machine.run (WhisperNode.step reference)
      (node.receive reference env (.str (lit "c")) submission).1 work = some t := ⟨_, rfl⟩
  have hdone : (Machine.run (WhisperNode.step reference)
      (node.receive reference env (.str (lit "c")) submission).1 work).map
        (fun t => standing t.ledger (.str (lit "t"))) =
      some (some (.completed, .str (lit "a"), .int 3, .str (lit "r"))) := by decide +kernel
  have hagain : (Machine.run (WhisperNode.step reference)
      (node.receive reference env (.str (lit "c")) submission).1 work).map (fun t =>
        standing (t.receive reference env (.str (lit "c")) submission).1.ledger (.str (lit "t"))) =
      some (some (.pending, .none, .int 1, .none)) := by decide +kernel
  rw [ht, Option.map_some, Option.some.injEq] at hdone hagain
  exact ⟨t, ht, hdone, hagain⟩

/-- The update of a task that the node does not know. -/
def update : Msg :=
  [(lit "type", .str (lit "ledger_update")), (lit "msg_id", .str (lit "1")),
   (lit "from", .str (lit "b")), (lit "hops", .int 8),
   (lit "task", .dict (Task.toDict
     { taskId := .str (lit "t"), payload := .str (lit "p"), shardId := .int 1, status := .pending
       leasedBy := .none, leaseExpires := .float 0, result := .none, createdAt := .float 0
       version := .int 1 }))]

/-- An update that arrives again after the task it brought is claimed is dropped. -/
theorem update_dropped : ∃ t, Machine.run (WhisperNode.step reference)
      (node.receive reference env (.str (lit "b")) update).1 [.call (.claimTask (lit "t") 1)] =
        some t ∧
    standing t.ledger (.str (lit "t")) = some (.inProgress, .str (lit "a"), .int 2, .none) ∧
    ∀ k, standing (t.receive reference env (.str (lit "b")) update).1.ledger k =
      standing t.ledger k := by
  obtain ⟨t, ht⟩ : ∃ t, Machine.run (WhisperNode.step reference)
      (node.receive reference env (.str (lit "b")) update).1 [.call (.claimTask (lit "t") 1)] =
        some t := ⟨_, rfl⟩
  have hstands : (Machine.run (WhisperNode.step reference)
      (node.receive reference env (.str (lit "b")) update).1 [.call (.claimTask (lit "t") 1)]).map
        (fun t => standing t.ledger (.str (lit "t"))) =
      some (some (.inProgress, .str (lit "a"), .int 2, .none)) := by decide +kernel
  rw [ht, Option.map_some, Option.some.injEq] at hstands
  refine ⟨t, ht, hstands, (redelivery_iff reference env env _ _ update _ (by decide) ht).mpr ?_⟩
  rintro (⟨hc, _⟩ | ⟨hc, _⟩ | ⟨_, hc | hc, _⟩)
  · exact absurd hc (by decide)
  · exact absurd hc (by decide)
  · exact absurd hc (by decide)
  · exact absurd hc (by decide)

end Twice

end WhisperNet
