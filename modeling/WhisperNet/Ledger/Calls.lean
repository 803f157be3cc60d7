import WhisperNet.Ledger.Effects

/-!
# Calls on a Ledger

The operations a node performs on its own ledger as one type, and what they
have in common. A call changes the record of a key only by an `Edit`, whose
guard and result depend on the operation, and it gossips only records that it
has just edited and that the ledger now holds. Both facts hold for every call
on every ledger, so an argument about runs has one case for each kind of edit
and none for the code of the operations.

A ledger changes in one other way, the merge of a received update. `Op` has
both.

The ids of the calls are texts, as the operations declare them. A merge takes a
record with an id of any type, and a scan that comes to a number calls its
operations with that number. Runs of calls have no such call; a claim under an
id that is no text is in `Runtime.Rescue`.

## Main definitions

* `Call`: An operation with its arguments and what it reads.
* `Call.run`: The ledger after a call, and what it sent.
* `Edit`: How a call may rewrite the record of a key.
* `Counted`: The version after an edit.
* `Op`: A call or the merge of a message.
* `Edits`: A call changes and gossips records only by its edits.
* `Worked`: Nothing but the records, the rescue count and the file differs.
* `Rewritten`: The fields an operation does not assign, and the times it does.
* `noted`: The cache after an update.
* `KeysMatch`: Every record is filed under its own id.

## Theorems

* `run_edits`: Every call changes and gossips records only by its edits.
* `run_worked`, `update_merged`: What a call, or an update, can change at all.
* `run_reworked`: What a call does to the fields of a record.
* `run_identity`, `update_identity`: The node stays who it is.
* `edit_taskId`: An edit keeps the id.
* `edit_old`: Only a submission makes a record where there was none.
* `edit_holder`: An edit makes this node the holder, or no one.
* `run_keysMatch`, `update_keysMatch`: Records stay under their own ids.
-/

namespace WhisperNet

open TaskLedger

/-- An operation of the local node, with what it reads from the environment. -/
inductive Call
  | submitTask (env : SubmitEnv) (taskId payload : PyStr) (shardId : Int) (submitterKey : PyVal)
  | claimTask (taskId : PyStr) (now : ℚ)
  | renewLease (taskId : PyStr) (now : ℚ)
  | completeTask (taskId result : PyStr) (now : ℚ) (uuid : PyStr)
  | releaseLease (taskId : PyStr)
  | releaseAllLeases
  | recoverIdentity (now : ℚ)

/-- An environment at time zero that knows no keys to encrypt to. -/
def TaskLedger.SubmitEnv.plain : SubmitEnv where
  now := 0
  thresholdParams := none
  encPubkey := .none
  thresholdRand := ⟨List.replicate 32 0, rfl, ⟨List.replicate 12 0, rfl⟩, fun _ _ => 0,
    fun _ => ⟨[], ⟨List.replicate 12 0, rfl⟩⟩⟩
  payloadRand := ⟨[], ⟨List.replicate 12 0, rfl⟩⟩

/-- A change of the ledger: a local operation or a received update. -/
inductive Op
  | call (c : Call)
  | update (msg : Msg)

/-- What an operation leaves behind, whatever it returns. -/
def Outcome.effect {α : Type} (o : Outcome α) : TaskLedger × List Output := (o.ledger, o.out)

def Call.run (P : Primitives) (L : TaskLedger) : Call → TaskLedger × List Output
  | .submitTask env taskId payload shardId submitterKey =>
    (L.submitTask P env taskId payload shardId submitterKey).effect
  | .claimTask taskId now => (L.claimTask taskId now).effect
  | .renewLease taskId now => (L.renewLease taskId now).effect
  | .completeTask taskId result now uuid => (L.completeTask taskId result now uuid).effect
  | .releaseLease taskId => (L.releaseLease taskId).effect
  | .releaseAllLeases => L.releaseAllLeases.effect
  | .recoverIdentity now => (L.recoverIdentity now).effect

def Op.apply (P : Primitives) (L : TaskLedger) : Op → TaskLedger
  | .call c => (c.run P L).1
  | .update msg => (L.handleLedgerUpdate P msg).ledger

/-- How a call may rewrite the record under `k`, `old` being the record before. -/
def Edit (L : TaskLedger) (k : Key) (old : Option Task) (new : Task) : Call → Prop
  | .submitTask _ taskId _ _ submitterKey => k = .str taskId ∧ new.taskId = .str taskId ∧
      new.status = .pending ∧ new.leasedBy = .none ∧ new.submitterKey = submitterKey ∧
      new.version = .int 1
  | .claimTask taskId now => k = .str taskId ∧ ∃ t, old = some t ∧ t.status ≠ .completed ∧
      (t.status = .inProgress → PyVal.lt t.leaseExpires (.float now) = .ok true) ∧
      new.status = .inProgress ∧ new.leasedBy = .str L.ourKey ∧ new.taskId = t.taskId
  | .renewLease taskId _ => k = .str taskId ∧ ∃ t, old = some t ∧ L.isMine t = true ∧
      new.status = t.status ∧ new.leasedBy = t.leasedBy ∧ new.taskId = t.taskId
  | .completeTask taskId result _ _ => k = .str taskId ∧ ∃ t, old = some t ∧
      t.leasedBy = .str L.ourKey ∧ new.status = .completed ∧ new.leasedBy = t.leasedBy ∧
      new.result = .str result ∧ new.taskId = t.taskId
  | .releaseLease taskId => k = .str taskId ∧ ∃ t, old = some t ∧ t.leasedBy = .str L.ourKey ∧
      new.status = .pending ∧ new.leasedBy = .none ∧ new.taskId = t.taskId
  | .releaseAllLeases => ∃ t, old = some t ∧ L.isMine t = true ∧
      new.status = .pending ∧ new.leasedBy = .none ∧ new.taskId = t.taskId
  | .recoverIdentity _ => ∃ t, old = some t ∧ L.isMine t = true ∧
      new.status = t.status ∧ new.leasedBy = t.leasedBy ∧ new.taskId = t.taskId

/-- The version after an edit of `old`: one more, or the same if the edit
    raised. -/
def Counted (old : Option Task) (new : Task) : Prop :=
  ∃ t, old = some t ∧ (t.version.incr = .ok new.version ∨ new.version = t.version)

def Call.isSubmit : Call → Bool
  | .submitTask .. => true
  | _ => false

/-! ## Edits -/

theorem edit_taskId {L : TaskLedger} {k : Key} {old : Option Task} {new : Task} {c : Call}
    (h : Edit L k old new c) (hold : ∀ t, old = some t → hashKey t.taskId = .ok k) :
    hashKey new.taskId = .ok k := by
  cases c with
  | submitTask env taskId payload shardId submitterKey =>
      rw [h.2.1, h.1]
      rfl
  | claimTask taskId now =>
      rcases h with ⟨_, t, ht, _, _, _, _, hid⟩
      rw [hid, hold t ht]
  | renewLease taskId now =>
      rcases h with ⟨_, t, ht, _, _, _, hid⟩
      rw [hid, hold t ht]
  | completeTask taskId result now uuid =>
      rcases h with ⟨_, t, ht, _, _, _, _, hid⟩
      rw [hid, hold t ht]
  | releaseLease taskId =>
      rcases h with ⟨_, t, ht, _, _, _, hid⟩
      rw [hid, hold t ht]
  | releaseAllLeases =>
      rcases h with ⟨t, ht, _, _, _, hid⟩
      rw [hid, hold t ht]
  | recoverIdentity now =>
      rcases h with ⟨t, ht, _, _, _, hid⟩
      rw [hid, hold t ht]

/-- The status and the holder an edit leaves: a lease of this node, a completed
    record of this node, or a pending record of no one. -/
theorem edit_holder {L : TaskLedger} {k : Key} {old : Option Task} {new : Task} {c : Call}
    (h : Edit L k old new c) :
    (new.leasedBy = .str L.ourKey ∧ (new.status = .inProgress ∨ new.status = .completed)) ∨
      (new.leasedBy = .none ∧ new.status = .pending) := by
  cases c with
  | submitTask env taskId payload shardId submitterKey => exact Or.inr ⟨h.2.2.2.1, h.2.2.1⟩
  | claimTask taskId now =>
      rcases h with ⟨_, t, _, _, _, hs, hl, _⟩
      exact Or.inl ⟨hl, Or.inl hs⟩
  | renewLease taskId now =>
      rcases h with ⟨_, t, _, hm, hs, hl, _⟩
      rw [isMine_iff] at hm
      exact Or.inl ⟨hl.trans hm.1, Or.inl (hs.trans hm.2)⟩
  | completeTask taskId result now uuid =>
      rcases h with ⟨_, t, _, hh, hs, hl, _⟩
      exact Or.inl ⟨hl.trans hh, Or.inr hs⟩
  | releaseLease taskId =>
      rcases h with ⟨_, t, _, _, hs, hl, _⟩
      exact Or.inr ⟨hl, hs⟩
  | releaseAllLeases =>
      rcases h with ⟨t, _, _, hs, hl, _⟩
      exact Or.inr ⟨hl, hs⟩
  | recoverIdentity now =>
      rcases h with ⟨t, _, hm, hs, hl, _⟩
      rw [isMine_iff] at hm
      exact Or.inl ⟨hl.trans hm.1, Or.inl (hs.trans hm.2)⟩

/-- Only a submission edits a key that has no record. -/
theorem edit_old {L : TaskLedger} {k : Key} {old : Option Task} {new : Task} {c : Call}
    (h : Edit L k old new c) : (∃ t, old = some t) ∨
      ∃ env taskId payload shardId submitterKey,
        c = .submitTask env taskId payload shardId submitterKey ∧ k = .str taskId := by
  cases c with
  | submitTask env taskId payload shardId submitterKey =>
      exact Or.inr ⟨env, taskId, payload, shardId, submitterKey, rfl, h.1⟩
  | claimTask taskId now =>
      rcases h with ⟨_, t, ht, _⟩
      exact Or.inl ⟨t, ht⟩
  | renewLease taskId now =>
      rcases h with ⟨_, t, ht, _⟩
      exact Or.inl ⟨t, ht⟩
  | completeTask taskId result now uuid =>
      rcases h with ⟨_, t, ht, _⟩
      exact Or.inl ⟨t, ht⟩
  | releaseLease taskId =>
      rcases h with ⟨_, t, ht, _⟩
      exact Or.inl ⟨t, ht⟩
  | releaseAllLeases =>
      rcases h with ⟨t, ht, _⟩
      exact Or.inl ⟨t, ht⟩
  | recoverIdentity now =>
      rcases h with ⟨t, ht, _⟩
      exact Or.inl ⟨t, ht⟩

/-! ## Calls -/

/-- What holds of a call at one key: the record is as before, or is the result
    of an edit; and what was gossiped about the key is the record now held. -/
structure Edits (L : TaskLedger) (c : Call) (e : TaskLedger × List Output) : Prop where
  record : ∀ k, e.1.tasks.get? k = L.tasks.get? k ∨
    ∃ new, e.1.tasks.get? k = some new ∧ Edit L k (L.tasks.get? k) new c ∧
      (c.isSubmit = false → Counted (L.tasks.get? k) new)
  gossip : ∀ new, .gossip new ∈ e.2 → ∃ k, e.1.tasks.get? k = some new ∧
    Edit L k (L.tasks.get? k) new c ∧
    ((∃ old, L.tasks.get? k = some old ∧ old.version.incr = .ok new.version) ∨
      new.version = .int 1)
  result : ∀ o ∈ e.2, (∃ new, o = .gossip new) ∨
    ∃ k new, e.1.tasks.get? k = some new ∧ Notifies new o

theorem edits_of_idle {L : TaskLedger} {o : Outcome Bool} {c : Call} (h : L.Idle o) :
    Edits L c o.effect where
  record := fun k => by
    left
    simp only [Outcome.effect, h.tasks]
  gossip := fun new hnew => by
    simp only [Outcome.effect, h.out] at hnew
    exact absurd hnew List.not_mem_nil
  result := fun o ho => by
    simp only [Outcome.effect, h.out] at ho
    exact absurd ho List.not_mem_nil

theorem edits_of_wrote {L : TaskLedger} {o : Outcome Bool} {taskId : PyStr} {old new : Task}
    {c : Call} (hw : L.Wrote o taskId old new) (he : Edit L (.str taskId) (some old) new c) :
    Edits L c o.effect := by
  have hfound : L.tasks.get? (.str taskId) = some old := hw.found
  have hself : o.ledger.tasks.get? (.str taskId) = some new := by
    rw [hw.tasks, Dict.get?_set_self]
  constructor
  · intro k
    by_cases hk : k = .str taskId
    · right
      rw [hk, hfound]
      refine ⟨new, hself, he, fun _ => ⟨old, rfl, ?_⟩⟩
      -- The version counts up by one, or the count raises and it stays.
      rcases hw.sent with ⟨_, hv, _⟩ | ⟨_, hv, _⟩
      · exact Or.inl hv
      · exact Or.inr hv
    · left
      simp only [Outcome.effect]
      rw [hw.tasks, Dict.get?_set_of_ne _ _ _ _ hk]
  · intro t ht
    simp only [Outcome.effect] at ht
    rcases hw.sent with ⟨_, hv, rest, hout, hrest⟩ | ⟨_, _, hout⟩
    · rw [hout] at ht
      rcases List.mem_cons.mp ht with ht | ht
      · rw [Output.gossip.injEq] at ht
        rw [ht]
        refine ⟨.str taskId, hself, ?_, Or.inl ⟨old, hfound, hv⟩⟩
        rw [hfound]
        exact he
      · exact absurd (hrest _ ht) (not_notifies_gossip new t)
    · rw [hout] at ht
      exact absurd ht List.not_mem_nil
  · intro r hr
    simp only [Outcome.effect] at hr
    rcases hw.sent with ⟨_, _, rest, hout, hrest⟩ | ⟨_, _, hout⟩
    · rw [hout] at hr
      rcases List.mem_cons.mp hr with hr | hr
      · exact Or.inl ⟨new, hr⟩
      · exact Or.inr ⟨.str taskId, new, hself, hrest r hr⟩
    · rw [hout] at hr
      exact absurd hr List.not_mem_nil

/-- The two walks over the records of this node, for an assignment that keeps
    the id and the version. -/
theorem edits_of_bumpAll {L : TaskLedger} {assign : Task → Task} {c : Call}
    (hv : ∀ t, (assign t).version = t.version)
    (he : ∀ k t, L.isMine t = true → Edit L k (some t) (bump assign t).1 c) :
    Edits L c (L.bumpAll assign).effect := by
  constructor
  · intro k
    simp only [Outcome.effect]
    rcases L.bumpAll_get? assign k with h | ⟨old, hold, hm, hnew⟩
    · exact Or.inl h
    · right
      rw [hold]
      exact ⟨_, hnew, he k old hm, fun _ => ⟨old, rfl, bump_version assign old (hv old)⟩⟩
  · intro t ht
    rcases L.bumpAll_out assign _ ht with ⟨k, old, new, ho, hold, hm, hnew, hbump, hincr⟩
    rw [Output.gossip.injEq] at ho
    rw [ho]
    refine ⟨k, hnew, ?_, Or.inl ⟨old, hold, hincr⟩⟩
    rw [hold, ← hbump]
    exact he k old hm
  · intro o ho
    rcases L.bumpAll_out assign o ho with ⟨_, _, new, hgossip, _⟩
    exact Or.inl ⟨new, hgossip⟩

theorem bump_fields (assign : Task → Task) (t : Task) :
    (bump assign t).1.status = (assign t).status ∧
      (bump assign t).1.leasedBy = (assign t).leasedBy ∧
      (bump assign t).1.taskId = (assign t).taskId := by
  unfold bump
  cases t.version.incr with
  | ok v => exact ⟨rfl, rfl, rfl⟩
  | error e => exact ⟨rfl, rfl, rfl⟩

/-- Every call changes records, and gossips them, only by its edits. -/
theorem run_edits (P : Primitives) (L : TaskLedger) (c : Call) : Edits L c (c.run P L) := by
  cases c with
  -- A submission puts its record whatever was there before.
  | submitTask env taskId payload shardId submitterKey =>
      have hedit : ∀ old, Edit L (.str taskId) old
          (L.submittedTask P env taskId payload shardId submitterKey)
          (.submitTask env taskId payload shardId submitterKey) :=
        fun old => ⟨rfl, rfl, rfl, rfl, rfl, rfl⟩
      have hself : ((L.put taskId (L.submittedTask P env taskId payload shardId
          submitterKey)).persist.tasks).get? (.str taskId)
          = some (L.submittedTask P env taskId payload shardId submitterKey) :=
        Dict.get?_set_self _ _ _
      constructor
      · intro k
        by_cases hk : k = .str taskId
        · right
          rw [hk]
          exact ⟨_, hself, hedit _, fun hc => absurd hc Bool.noConfusion⟩
        · exact Or.inl (Dict.get?_set_of_ne _ _ _ _ hk)
      · intro t ht
        have heq : t = L.submittedTask P env taskId payload shardId submitterKey :=
          Output.gossip.inj (List.mem_singleton.mp ht)
        rw [heq]
        exact ⟨.str taskId, hself, hedit _, Or.inr rfl⟩
      · exact fun o ho => Or.inl ⟨_, List.mem_singleton.mp ho⟩
  -- The four calls about one task do nothing, or write that one record.
  | claimTask taskId now =>
      rcases L.claimTask_cases taskId now with h | ⟨old, new, hw, hc, hs, hexp, hl, hid, _⟩
      · exact edits_of_idle h
      · exact edits_of_wrote hw ⟨rfl, old, rfl, hc, hexp, hs, hl, hid⟩
  | renewLease taskId now =>
      rcases L.renewLease_cases taskId now with h | ⟨old, new, hw, hm, hs, hl, hid, _⟩
      · exact edits_of_idle h
      · exact edits_of_wrote hw ⟨rfl, old, rfl, hm, hs, hl, hid⟩
  | completeTask taskId result now uuid =>
      rcases L.completeTask_cases taskId result now uuid with
        ⟨h, _⟩ | ⟨old, new, hw, hh, hs, hl, hid, hr, _⟩
      · exact edits_of_idle h
      · exact edits_of_wrote hw ⟨rfl, old, rfl, hh, hs, hl, hr, hid⟩
  | releaseLease taskId =>
      rcases L.releaseLease_cases taskId with ⟨h, _⟩ | ⟨old, new, hw, hh, hs, hl, hid⟩
      · exact edits_of_idle h
      · exact edits_of_wrote hw ⟨rfl, old, rfl, hh, hs, hl, hid⟩
  -- The two that go through the table write only records of the node itself.
  | releaseAllLeases =>
      refine edits_of_bumpAll (fun _ => rfl) (fun k t hm => ?_)
      rcases bump_fields (fun t : Task => { t with
        status := .pending, leasedBy := .none, leaseExpires := .float 0 }) t with ⟨hs, hl, hid⟩
      exact ⟨t, rfl, hm, hs, hl, hid⟩
  | recoverIdentity now =>
      refine edits_of_bumpAll (fun _ => rfl) (fun k t hm => ?_)
      rcases bump_fields (fun t : Task => { t with
        leaseExpires := .float (now + L.leaseDuration) }) t with ⟨hs, hl, hid⟩
      exact ⟨t, rfl, hm, hs, hl, hid⟩

/-! ## What a ledger keeps -/

/-- The ledgers differ in nothing but the records, the rescue count and the file. -/
def Worked (L L' : TaskLedger) : Prop :=
  ∃ tasks rescued disk, L' = { L with tasks := tasks, tasksRescued := rescued, disk := disk }

theorem bumpAll_worked (L : TaskLedger) (assign : Task → Task) :
    Worked L (L.bumpAll assign).ledger := by
  unfold bumpAll
  split
  · exact ⟨_, _, _, rfl⟩
  · simp only []
    split
    · exact ⟨_, _, _, rfl⟩
    · exact ⟨_, _, _, rfl⟩

theorem claimFree_worked (L : TaskLedger) (taskId : PyStr) (t : Task) (now : ℚ) :
    Worked L (L.claimFree taskId t now).ledger := by
  unfold claimFree
  simp only []
  split
  · exact ⟨_, _, _, rfl⟩
  · split
    · exact ⟨_, _, _, rfl⟩
    · exact ⟨_, _, _, rfl⟩

theorem run_worked (P : Primitives) (L : TaskLedger) (c : Call) : Worked L (c.run P L).1 := by
  cases c with
  | submitTask env taskId payload shardId submitterKey => exact ⟨_, _, _, rfl⟩
  | claimTask taskId now =>
      simp only [Call.run, Outcome.effect]
      unfold claimTask
      split
      · exact ⟨_, _, _, rfl⟩
      · split
        · exact ⟨_, _, _, rfl⟩
        · split
          · exact ⟨_, _, _, rfl⟩
          · split
            · exact ⟨_, _, _, rfl⟩
            · simp only []
              -- Counting the rescue is part of what may differ.
              split
              · rcases claimFree_worked { L with tasksRescued := L.tasksRescued + 1 } taskId _
                  now with
                  ⟨tasks, rescued, disk, h⟩
                exact ⟨tasks, rescued, disk, h⟩
              · exact claimFree_worked L taskId _ now
  | renewLease taskId now =>
      simp only [Call.run, Outcome.effect]
      unfold renewLease
      split
      · exact ⟨_, _, _, rfl⟩
      · split
        · exact ⟨_, _, _, rfl⟩
        · simp only []
          split
          · exact ⟨_, _, _, rfl⟩
          · exact ⟨_, _, _, rfl⟩
  | completeTask taskId result now uuid =>
      simp only [Call.run, Outcome.effect]
      unfold completeTask
      split
      · exact ⟨_, _, _, rfl⟩
      · split
        · exact ⟨_, _, _, rfl⟩
        · simp only []
          split
          · exact ⟨_, _, _, rfl⟩
          · split
            · exact ⟨_, _, _, rfl⟩
            · exact ⟨_, _, _, rfl⟩
  | releaseLease taskId =>
      simp only [Call.run, Outcome.effect]
      unfold releaseLease
      split
      · exact ⟨_, _, _, rfl⟩
      · split
        · exact ⟨_, _, _, rfl⟩
        · simp only []
          split
          · exact ⟨_, _, _, rfl⟩
          · exact ⟨_, _, _, rfl⟩
  | releaseAllLeases => exact bumpAll_worked L _
  | recoverIdentity now => exact bumpAll_worked L _

theorem run_identity (P : Primitives) (L : TaskLedger) (c : Call) :
    (c.run P L).1.ourKey = L.ourKey ∧ (c.run P L).1.signer = L.signer := by
  rcases run_worked P L c with ⟨tasks, rescued, disk, h⟩
  rw [h]
  exact ⟨rfl, rfl⟩

/-- What no operation assigns to a record, and the times a status comes with. -/
structure Rewritten (old new : Task) : Prop where
  payload : new.payload = old.payload
  shardId : new.shardId = old.shardId
  createdAt : new.createdAt = old.createdAt
  submitterKey : new.submitterKey = old.submitterKey
  encrypted : new.encrypted = old.encrypted
  thresholdT : new.thresholdT = old.thresholdT
  lease : new.status = .inProgress → ∃ q, new.leaseExpires = .float q
  done : new.status = .completed → ∃ q, new.completedAt = .float q

namespace Rewritten

variable {old t : Task}

/-- Counting a version up is no assignment to the fields above. -/
theorem version (h : Rewritten old t) (v : PyVal) : Rewritten old { t with version := v } :=
  ⟨h.payload, h.shardId, h.createdAt, h.submitterKey, h.encrypted, h.thresholdT, h.lease, h.done⟩

theorem commitment (h : Rewritten old t) (v : PyVal) : Rewritten old { t with commitment := v } :=
  ⟨h.payload, h.shardId, h.createdAt, h.submitterKey, h.encrypted, h.thresholdT, h.lease, h.done⟩

theorem resultHash (h : Rewritten old t) (v : PyVal) : Rewritten old { t with resultHash := v } :=
  ⟨h.payload, h.shardId, h.createdAt, h.submitterKey, h.encrypted, h.thresholdT, h.lease, h.done⟩

theorem bump {assign : Task → Task} (h : Rewritten old (assign t)) :
    Rewritten old (TaskLedger.bump assign t).1 := by
  unfold TaskLedger.bump
  cases t.version.incr with
  | ok v => exact h.version v
  | error e => exact h

end Rewritten

/-- A call leaves the record of a key, rewrites it, or submits it. -/
def Reworked (P : Primitives) (L : TaskLedger) (c : Call) (k : Key) (new : Task) : Prop :=
  L.tasks.get? k = some new ∨
    (c.isSubmit = false ∧ ∃ old, L.tasks.get? k = some old ∧ Rewritten old new) ∨
    ∃ env taskId payload shardId submitterKey,
      c = .submitTask env taskId payload shardId submitterKey ∧
        new = L.submittedTask P env taskId payload shardId submitterKey

theorem reworked_put {P : Primitives} {L : TaskLedger} {c : Call} {taskId : PyStr}
    {old t new : Task}
    {k : Key} (hc : c.isSubmit = false) (hfind : L.find? taskId = some old)
    (h : (L.tasks.set (.str taskId) t).get? k = some new) (ht : Rewritten old t) :
    Reworked P L c k new := by
  rw [Dict.get?_set] at h
  by_cases hk : k = .str taskId
  · rw [if_pos hk, Option.some.injEq] at h
    rw [← h, hk]
    exact Or.inr (Or.inl ⟨hc, old, hfind, ht⟩)
  · rw [if_neg hk] at h
    exact Or.inl h

theorem reworked_bumpAll {P : Primitives} {L : TaskLedger} {c : Call} {assign : Task → Task}
    {k : Key} {new : Task} (hc : c.isSubmit = false)
    (hassign : ∀ t, L.isMine t = true → Rewritten t (assign t))
    (h : (L.bumpAll assign).ledger.tasks.get? k = some new) : Reworked P L c k new := by
  rcases L.bumpAll_get? assign k with hsame | ⟨old, hold, hmine, heq⟩
  · exact Or.inl (hsame ▸ h)
  · rw [heq, Option.some.injEq] at h
    exact Or.inr (Or.inl ⟨hc, old, hold, h ▸ (hassign old hmine).bump⟩)

theorem reworked_claimFree {P : Primitives} {L M : TaskLedger} {taskId : PyStr} {old new : Task}
    {now : ℚ} {k : Key} (htasks : M.tasks = L.tasks) (hfind : L.find? taskId = some old)
    (h : (M.claimFree taskId old now).ledger.tasks.get? k = some new) :
    Reworked P L (.claimTask taskId now) k new := by
  have hleased : Rewritten old { old with
      status := .inProgress
      leasedBy := .str M.ourKey
      leaseExpires := .float (now + M.leaseDuration)
      claimedAt := .float now } :=
    ⟨rfl, rfl, rfl, rfl, rfl, rfl, fun _ => ⟨_, rfl⟩, fun hc => nomatch hc⟩
  unfold claimFree put at h
  rw [htasks] at h
  dsimp only at h
  -- Even where the commitment or the count raises, the lease is already made.
  split at h
  · exact reworked_put rfl hfind h hleased
  · split at h
    · exact reworked_put rfl hfind h (hleased.commitment _)
    · exact reworked_put rfl hfind h ((hleased.commitment _).version _)

theorem not_completed_of_isMine {L : TaskLedger} {t : Task} (h : L.isMine t = true) :
    t.status ≠ .completed := by
  intro hc
  rw [isMine_iff, hc] at h
  exact absurd h.2 (by simp only [reduceCtorEq, not_false_eq_true])

theorem run_reworked (P : Primitives) (L : TaskLedger) (c : Call) {k : Key} {new : Task}
    (h : (c.run P L).1.tasks.get? k = some new) : Reworked P L c k new := by
  cases c with
  | submitTask env taskId payload shardId submitterKey =>
      have hset : (L.tasks.set (.str taskId)
          (L.submittedTask P env taskId payload shardId submitterKey)).get? k = some new := h
      rw [Dict.get?_set] at hset
      by_cases hk : k = .str taskId
      · rw [if_pos hk, Option.some.injEq] at hset
        exact Or.inr (Or.inr ⟨env, taskId, payload, shardId, submitterKey, rfl, hset.symm⟩)
      · rw [if_neg hk] at hset
        exact Or.inl hset
  | claimTask taskId now =>
      simp only [Call.run, Outcome.effect] at h
      unfold claimTask at h
      split at h
      · exact Or.inl h
      · rename_i old hfind
        split at h
        · exact Or.inl h
        · split at h
          · exact Or.inl h
          · split at h
            · exact Or.inl h
            · dsimp only at h
              -- Counting the rescue leaves the records.
              split at h
              · exact reworked_claimFree (M := { L with tasksRescued := L.tasksRescued + 1 })
                  rfl hfind h
              · exact reworked_claimFree rfl hfind h
  | renewLease taskId now =>
      simp only [Call.run, Outcome.effect] at h
      unfold renewLease at h
      split at h
      · exact Or.inl h
      · rename_i old hfind
        split at h
        · exact Or.inl h
        · rename_i hmine
          have hrenewed : Rewritten old { old with
              leaseExpires := .float (now + L.leaseDuration) } :=
            ⟨rfl, rfl, rfl, rfl, rfl, rfl, fun _ => ⟨_, rfl⟩,
              fun hc => absurd hc (not_completed_of_isMine (Bool.not_eq_false _ ▸ hmine))⟩
          dsimp only at h
          split at h
          · exact reworked_put rfl hfind h hrenewed
          · exact reworked_put rfl hfind h (hrenewed.version _)
  | completeTask taskId result now uuid =>
      simp only [Call.run, Outcome.effect] at h
      unfold completeTask at h
      split at h
      · exact Or.inl h
      · rename_i old hfind
        split at h
        · exact Or.inl h
        · have hdone : Rewritten old { old with
              status := .completed
              result := .str result
              completedAt := .float now } :=
            ⟨rfl, rfl, rfl, rfl, rfl, rfl, by rintro ⟨⟩, fun _ => ⟨_, rfl⟩⟩
          dsimp only at h
          -- The hash and the count come after the status, and may raise.
          split at h
          · exact reworked_put rfl hfind h hdone
          · split at h
            · exact reworked_put rfl hfind h (hdone.resultHash _)
            · exact reworked_put rfl hfind h ((hdone.resultHash _).version _)
  | releaseLease taskId =>
      simp only [Call.run, Outcome.effect] at h
      unfold releaseLease at h
      split at h
      · exact Or.inl h
      · rename_i old hfind
        split at h
        · exact Or.inl h
        · have hfreed : Rewritten old { old with
              status := .pending
              leasedBy := .none
              leaseExpires := .float 0 } :=
            ⟨rfl, rfl, rfl, rfl, rfl, rfl, by rintro ⟨⟩, by rintro ⟨⟩⟩
          dsimp only at h
          split at h
          · exact reworked_put rfl hfind h hfreed
          · exact reworked_put rfl hfind h (hfreed.version _)
  | releaseAllLeases =>
      refine reworked_bumpAll rfl (fun t _ => ?_) h
      exact ⟨rfl, rfl, rfl, rfl, rfl, rfl, by rintro ⟨⟩, by rintro ⟨⟩⟩
  | recoverIdentity now =>
      refine reworked_bumpAll rfl (fun t hmine => ?_) h
      exact ⟨rfl, rfl, rfl, rfl, rfl, rfl, fun _ => ⟨_, rfl⟩,
        fun hc => absurd hc (not_completed_of_isMine hmine)⟩

/-- The cache after an update: its id is noted, unless it has none or was seen. -/
def noted (L : TaskLedger) (msg : Msg) : Window seenCacheSize PyVal :=
  if (PyVal.get msg (lit "msg_id")).truthy = false
      ∨ pyIn (PyVal.get msg (lit "msg_id")) L.seenIds.items = true then L.seenIds
  else L.seenIds.append (PyVal.get msg (lit "msg_id"))

theorem update_merged (P : Primitives) (L : TaskLedger) (msg : Msg) :
    ∃ tasks disk, (L.handleLedgerUpdate P msg).ledger =
      { L with tasks := tasks, disk := disk, seenIds := noted L msg } := by
  -- The merge is the only part that writes, and it writes the table and the disk.
  have hmerge : ∀ (L : TaskLedger) (key : Key) (t : Task),
      ∃ tasks disk, (L.mergeTask msg key t).ledger = { L with tasks := tasks, disk := disk } := by
    intro L key t
    unfold mergeTask
    split
    · exact ⟨_, _, rfl⟩
    · exact ⟨_, _, rfl⟩
    · simp only []
      split
      · split
        · exact ⟨_, _, rfl⟩
        · exact ⟨_, _, rfl⟩
      · exact ⟨_, _, rfl⟩
  unfold handleLedgerUpdate noted
  split
  · exact ⟨_, _, rfl⟩
  · simp only []
    unfold handleFresh
    split
    · exact ⟨_, _, rfl⟩
    · split
      · exact ⟨_, _, rfl⟩
      · split
        · split
          · exact ⟨_, _, rfl⟩
          · split
            · exact ⟨_, _, rfl⟩
            · exact hmerge _ _ _
        · exact ⟨_, _, rfl⟩

theorem update_identity (P : Primitives) (L : TaskLedger) (msg : Msg) :
    (L.handleLedgerUpdate P msg).ledger.ourKey = L.ourKey ∧
      (L.handleLedgerUpdate P msg).ledger.signer = L.signer := by
  rcases update_merged P L msg with ⟨tasks, disk, h⟩
  rw [h]
  exact ⟨rfl, rfl⟩

/-- Every record is filed under its own id. -/
def KeysMatch (L : TaskLedger) : Prop :=
  ∀ k t, L.tasks.get? k = some t → hashKey t.taskId = .ok k

theorem KeysMatch.key_eq {L : TaskLedger} (h : KeysMatch L) {k : Key} {t : Task} {taskId : PyStr}
    (ht : L.tasks.get? k = some t) (hid : t.taskId = .str taskId) : k = .str taskId := by
  have hkey := h k t ht
  rw [hid] at hkey
  exact (Except.ok.inj hkey).symm

theorem run_keysMatch (P : Primitives) (L : TaskLedger) (c : Call) (h : KeysMatch L) :
    KeysMatch (c.run P L).1 := by
  intro k t ht
  rcases (run_edits P L c).record k with hsame | ⟨new, hnew, hedit, _⟩
  · exact h k t (by rw [← hsame, ht])
  · rw [ht, Option.some.injEq] at hnew
    rw [hnew]
    exact edit_taskId hedit (fun old hold => h k old hold)

theorem update_keysMatch (P : Primitives) (L : TaskLedger) (msg : Msg) (h : KeysMatch L) :
    KeysMatch (L.handleLedgerUpdate P msg).ledger := by
  intro k t ht
  rcases L.handleLedgerUpdate_cases P msg with ⟨hsame, _⟩ |
      ⟨d, incoming, key, _, _, hkey, _, _, hset, _⟩
  · exact h k t (by rw [← hsame, ht])
  · rw [hset, Dict.get?_set] at ht
    by_cases hk : k = key
    · rw [if_pos hk, Option.some.injEq] at ht
      rw [← ht, hk, hkey]
    · rw [if_neg hk] at ht
      exact h k t ht

end WhisperNet
