import WhisperNet.Ledger.Ops

/-!
# What an Operation Can Do

One inversion lemma for each operation of the ledger. An operation that works
on a single task either leaves the records alone (`Idle`) or rewrites the one
record it was asked about (`Wrote`), and the lemma says under which guard and
into what. The two operations that walk over all records change only records
this node holds (`bumpAll_get?`), and the merge installs the incoming record
or nothing (`handleLedgerUpdate_cases`).

Everything proved about runs goes through these lemmas. None of them looks at
a record other than through the guard the source checks, so a change to one
operation is a change to one lemma.

## Main definitions

* `Idle`: No record changed and nothing was sent.
* `Wrote`: One record was rewritten, and sent unless the operation raised.
* `Notifies`: A result message about a completed record.

## Theorems

* `claimTask_cases`, `renewLease_cases`, `releaseLease_cases`,
  `completeTask_cases`: The operations on one task.
* `bumpAll_get?`, `bumpAll_out`: Recovery and shutdown.
* `mergeTask_cases`, `handleLedgerUpdate_cases`: The merge.
* `gossip_fields`: What signing leaves of a gossiped message.
-/

namespace WhisperNet

namespace TaskLedger

/-- No record changed and nothing was sent. -/
structure Idle (L : TaskLedger) (o : Outcome Bool) : Prop where
  tasks : o.ledger.tasks = L.tasks
  out : o.out = []
  ret : o.ret ≠ .ok true

/-- A result message about a completed record. -/
def Notifies (t : Task) (o : Output) : Prop :=
  t.status = .completed ∧ ∃ msg, (o = .localResult msg ∨ o = .taskResult t.submitterKey msg) ∧
    PyVal.get msg (lit "task_id") = t.taskId ∧ PyVal.get msg (lit "result") = t.result

/-- The record of `taskId` was rewritten from `old` to `new`. On success its
    version went up by one and the record was gossiped, before any result
    message about it; an exception leaves it rewritten under its old version
    and sends nothing. -/
structure Wrote (L : TaskLedger) (o : Outcome Bool) (taskId : PyStr) (old new : Task) :
    Prop where
  found : L.find? taskId = some old
  tasks : o.ledger.tasks = L.tasks.set (.str taskId) new
  sent : (o.ret = .ok true ∧ old.version.incr = .ok new.version ∧
      ∃ rest, o.out = .gossip new :: rest ∧ ∀ r ∈ rest, Notifies new r) ∨
    ((∃ e, o.ret = .error e) ∧ new.version = old.version ∧ o.out = [])

/-- Results go out of completed records only. -/
theorem Wrote.gossips {L : TaskLedger} {o : Outcome Bool} {taskId : PyStr} {old new : Task}
    (hw : L.Wrote o taskId old new) (hopen : new.status ≠ .completed) :
    ∀ x ∈ o.out, x = .gossip new := by
  intro x hx
  rcases hw.sent with ⟨_, _, rest, hout, hrest⟩ | ⟨_, _, hout⟩
  · rw [hout] at hx
    rcases List.mem_cons.mp hx with hhead | htail
    · exact hhead
    · exact (hopen (hrest x htail).1).elim
  · rw [hout] at hx
    exact (List.not_mem_nil hx).elim

theorem mem_notifySubmitter (L : TaskLedger) (uuid : PyStr) (task : Task) (o : Output)
    (hs : task.status = .completed) (h : o ∈ L.notifySubmitter uuid task) : Notifies task o := by
  unfold notifySubmitter at h
  split at h
  · exact absurd h List.not_mem_nil
  · split at h
    · exact ⟨hs, _, Or.inl (List.mem_singleton.mp h), rfl, rfl⟩
    · exact ⟨hs, _, Or.inr (List.mem_singleton.mp h), rfl, rfl⟩

theorem not_notifies_gossip (t t' : Task) : ¬ Notifies t (.gossip t') := by
  rintro ⟨_, msg, ho | ho, _⟩
  · exact absurd ho (by simp only [reduceCtorEq, not_false_eq_true])
  · exact absurd ho (by simp only [reduceCtorEq, not_false_eq_true])

theorem idle_false (L : TaskLedger) : L.Idle { ret := .ok false, ledger := L } :=
  ⟨rfl, rfl, by simp only [ne_eq, Except.ok.injEq, Bool.false_eq_true, not_false_eq_true]⟩

theorem idle_error (L : TaskLedger) (e : PyErr) : L.Idle { ret := .error e, ledger := L } :=
  ⟨rfl, rfl, by simp only [ne_eq, reduceCtorEq, not_false_eq_true]⟩

theorem isMine_iff (L : TaskLedger) (t : Task) :
    L.isMine t = true ↔ t.leasedBy = .str L.ourKey ∧ t.status = .inProgress := by
  unfold isMine
  rw [decide_eq_true_iff]

/-- `claim_task` writes a record only over one that is not completed, and makes
    this node the holder of a lease. -/
theorem claimTask_cases (L : TaskLedger) (taskId : PyStr) (now : ℚ) :
    L.Idle (L.claimTask taskId now) ∨
    ∃ old new, L.Wrote (L.claimTask taskId now) taskId old new ∧
      old.status ≠ .completed ∧ new.status = .inProgress ∧
      (old.status = .inProgress → PyVal.lt old.leaseExpires (.float now) = .ok true) ∧
      new.leasedBy = .str L.ourKey ∧ new.taskId = old.taskId ∧
      new.leaseExpires = .float (now + L.leaseDuration) := by
  unfold claimTask
  cases hf : L.find? taskId with
  | none => exact Or.inl L.idle_false
  | some old =>
      simp only []
      by_cases hc : old.status = .completed
      · rw [if_pos hc]
        exact Or.inl L.idle_false
      · rw [if_neg hc]
        cases ho : wasOrphaned old now with
        | error e => exact Or.inl (L.idle_error e)
        | ok orphaned =>
            simp only []
            by_cases hheld : old.status = .inProgress ∧ orphaned = false
            · rw [if_pos hheld]
              exact Or.inl L.idle_false
            · rw [if_neg hheld]
              have hexp : old.status = .inProgress →
                  PyVal.lt old.leaseExpires (.float now) = .ok true := by
                intro hp
                unfold wasOrphaned at ho
                rw [if_pos hp] at ho
                cases orphaned with
                | true => exact ho
                | false => exact absurd ⟨hp, rfl⟩ hheld
              -- Counting a rescue changes neither the records nor the key.
              have htasks : (if orphaned = true then
                  { L with tasksRescued := L.tasksRescued + 1 } else L).tasks = L.tasks := by
                split <;> rfl
              have hkey : (if orphaned = true then
                  { L with tasksRescued := L.tasksRescued + 1 } else L).ourKey = L.ourKey := by
                split <;> rfl
              have hdur : (if orphaned = true then
                  { L with tasksRescued := L.tasksRescued + 1 } else L).leaseDuration
                  = L.leaseDuration := by
                split <;> rfl
              right
              unfold claimFree put persist
              rw [htasks, hkey, hdur]
              cases digest16 (commitmentText L.ourKey taskId now) with
              | error e =>
                  exact ⟨old, _, ⟨hf, rfl, Or.inr ⟨⟨e, rfl⟩, rfl, rfl⟩⟩, hc, rfl, hexp, rfl, rfl,
                    rfl⟩
              | ok commitment =>
                  simp only []
                  cases hv : old.version.incr with
                  | error e =>
                      exact ⟨old, _, ⟨hf, rfl, Or.inr ⟨⟨e, rfl⟩, rfl, rfl⟩⟩, hc, rfl, hexp, rfl,
                        rfl, rfl⟩
                  | ok v =>
                      exact ⟨old, _,
                        ⟨hf, rfl, Or.inl ⟨rfl, hv, [], rfl,
                          fun _ hr => absurd hr List.not_mem_nil⟩⟩,
                        hc, rfl, hexp, rfl, rfl, rfl⟩

/-- `renew_lease` writes only over a record this node holds in progress, and
    leaves it so. -/
theorem renewLease_cases (L : TaskLedger) (taskId : PyStr) (now : ℚ) :
    L.Idle (L.renewLease taskId now) ∨
    ∃ old new, L.Wrote (L.renewLease taskId now) taskId old new ∧
      L.isMine old = true ∧ new.status = old.status ∧ new.leasedBy = old.leasedBy ∧
      new.taskId = old.taskId ∧ new.leaseExpires = .float (now + L.leaseDuration) := by
  unfold renewLease
  cases hf : L.find? taskId with
  | none => exact Or.inl L.idle_false
  | some old =>
      simp only []
      by_cases hm : L.isMine old = false
      · rw [if_pos hm]
        exact Or.inl L.idle_false
      · rw [if_neg hm]
        have hmine : L.isMine old = true := by
          cases h : L.isMine old with
          | true => rfl
          | false => exact absurd h hm
        right
        cases hv : old.version.incr with
        | error e =>
            exact ⟨old, _, ⟨hf, rfl, Or.inr ⟨⟨e, rfl⟩, rfl, rfl⟩⟩, hmine, rfl, rfl, rfl, rfl⟩
        | ok v =>
            exact ⟨old, _,
              ⟨hf, rfl, Or.inl ⟨rfl, hv, [], rfl, fun _ hr => absurd hr List.not_mem_nil⟩⟩,
              hmine, rfl, rfl, rfl, rfl⟩

/-- `release_lease` looks at the holder only: it makes any record this node
    holds pending again, whatever its status. -/
theorem releaseLease_cases (L : TaskLedger) (taskId : PyStr) :
    (L.Idle (L.releaseLease taskId) ∧
      ∀ t, L.find? taskId = some t → t.leasedBy ≠ .str L.ourKey) ∨
    ∃ old new, L.Wrote (L.releaseLease taskId) taskId old new ∧
      old.leasedBy = .str L.ourKey ∧ new.status = .pending ∧ new.leasedBy = .none ∧
      new.taskId = old.taskId := by
  unfold releaseLease
  cases hf : L.find? taskId with
  | none =>
      refine Or.inl ⟨L.idle_false, fun t ht => ?_⟩
      exact absurd ht (by simp only [reduceCtorEq, not_false_eq_true])
  | some old =>
      simp only []
      by_cases hh : old.leasedBy ≠ .str L.ourKey
      · rw [if_pos hh]
        refine Or.inl ⟨L.idle_false, fun t ht => ?_⟩
        rw [Option.some.injEq] at ht
        rw [← ht]
        exact hh
      · rw [if_neg hh]
        have hholder : old.leasedBy = .str L.ourKey := not_not.mp hh
        right
        -- Counting a version up that is no number raises, with the record changed.
        cases hv : old.version.incr with
        | error e => exact ⟨old, _, ⟨hf, rfl, Or.inr ⟨⟨e, rfl⟩, rfl, rfl⟩⟩, hholder, rfl, rfl, rfl⟩
        | ok v =>
            exact ⟨old, _,
              ⟨hf, rfl, Or.inl ⟨rfl, hv, [], rfl, fun _ hr => absurd hr List.not_mem_nil⟩⟩,
              hholder, rfl, rfl, rfl⟩

/-- `complete_task` looks at the holder only, like `release_lease`. The digest
    is assigned unless the result has no encoding. -/
theorem completeTask_cases (L : TaskLedger) (taskId result : PyStr) (now : ℚ) (uuid : PyStr) :
    (L.Idle (L.completeTask taskId result now uuid) ∧
      ∀ t, L.find? taskId = some t → t.leasedBy ≠ .str L.ourKey) ∨
    ∃ old new, L.Wrote (L.completeTask taskId result now uuid) taskId old new ∧
      old.leasedBy = .str L.ourKey ∧ new.status = .completed ∧ new.leasedBy = old.leasedBy ∧
      new.taskId = old.taskId ∧ new.result = .str result ∧
      ((∃ e, digest16 result = .error e ∧ new.resultHash = old.resultHash) ∨
        digest16 result = .ok new.resultHash) := by
  unfold completeTask
  cases hf : L.find? taskId with
  | none =>
      refine Or.inl ⟨L.idle_false, fun t ht => ?_⟩
      exact absurd ht (by simp only [reduceCtorEq, not_false_eq_true])
  | some old =>
      simp only []
      by_cases hh : old.leasedBy ≠ .str L.ourKey
      · rw [if_pos hh]
        refine Or.inl ⟨L.idle_false, fun t ht => ?_⟩
        rw [Option.some.injEq] at ht
        rw [← ht]
        exact hh
      · rw [if_neg hh]
        have hholder : old.leasedBy = .str L.ourKey := not_not.mp hh
        right
        -- The hash and then the count may raise, and both leave the record rewritten.
        cases hd : digest16 result with
        | error e =>
            exact ⟨old, _, ⟨hf, rfl, Or.inr ⟨⟨e, rfl⟩, rfl, rfl⟩⟩, hholder, rfl, rfl, rfl, rfl,
              Or.inl ⟨e, rfl, rfl⟩⟩
        | ok resultHash =>
            simp only []
            cases hv : old.version.incr with
            | error e =>
                exact ⟨old, _, ⟨hf, rfl, Or.inr ⟨⟨e, rfl⟩, rfl, rfl⟩⟩, hholder, rfl, rfl, rfl, rfl,
                  Or.inr rfl⟩
            | ok v =>
                exact ⟨old, _, ⟨hf, rfl, Or.inl ⟨rfl, hv, _, rfl,
                  fun r hr => L.mem_notifySubmitter uuid _ r rfl hr⟩⟩, hholder, rfl, rfl, rfl, rfl,
                  Or.inr rfl⟩

/-! ## Recovery and shutdown -/

theorem bumpAll_tasks (L : TaskLedger) (assign : Task → Task) :
    (L.bumpAll assign).ledger.tasks = L.tasks.mapUntil (L.bumpMine assign) := by
  unfold bumpAll
  cases L.bumped assign L.tasks.values with
  | error e => rfl
  | ok touched =>
      simp only []
      split <;> rfl

theorem bump_version (assign : Task → Task) (t : Task) (hv : (assign t).version = t.version) :
    t.version.incr = .ok (bump assign t).1.version ∨ (bump assign t).1.version = t.version := by
  unfold bump
  cases h : t.version.incr with
  | ok v => exact Or.inl rfl
  | error e => exact Or.inr hv

/-- Recovery and shutdown rewrite only records this node holds in progress. -/
theorem bumpAll_get? (L : TaskLedger) (assign : Task → Task) (k : Key) :
    (L.bumpAll assign).ledger.tasks.get? k = L.tasks.get? k ∨
      ∃ old, L.tasks.get? k = some old ∧ L.isMine old = true ∧
        (L.bumpAll assign).ledger.tasks.get? k = some (bump assign old).1 := by
  rw [bumpAll_tasks]
  rcases L.tasks.get?_mapUntil (L.bumpMine assign) k with h | h
  · exact Or.inl h
  · rw [h]
    cases hk : L.tasks.get? k with
    | none => exact Or.inl rfl
    | some old =>
        by_cases hm : L.isMine old = true
        · refine Or.inr ⟨old, rfl, hm, ?_⟩
          simp only [Option.map_some, bumpMine, if_pos hm]
        · left
          simp only [Option.map_some, bumpMine, if_neg hm]

/-- When the walk does not raise, no version was flagged, and what it touched
    are the rewritten records of this node. -/
theorem bumped_ok (L : TaskLedger) (assign : Task → Task) (ts touched : List Task)
    (h : L.bumped assign ts = .ok touched) :
    (∀ t ∈ ts, (L.bumpMine assign t).2 = false) ∧
      ∀ t' ∈ touched, ∃ t ∈ ts, L.isMine t = true ∧ (bump assign t).1 = t' ∧
        t.version.incr = .ok t'.version := by
  -- Every version has counted up, or the list would have raised.
  induction ts generalizing touched with
  | nil =>
      simp only [bumped, Except.ok.injEq] at h
      rw [← h]
      exact ⟨fun t ht => absurd ht List.not_mem_nil, fun t ht => absurd ht List.not_mem_nil⟩
  | cons t ts ih =>
      unfold bumped at h
      by_cases hm : L.isMine t = true
      · rw [if_pos hm] at h
        cases hv : t.version.incr with
        | error e => simp only [hv, reduceCtorEq] at h
        | ok v =>
            cases hb : L.bumped assign ts with
            | error e => simp only [hv, hb, reduceCtorEq] at h
            | ok rest =>
                simp only [hv, hb, Except.ok.injEq] at h
                rcases ih rest hb with ⟨hflag, hrest⟩
                have hbump : bump assign t = ({ assign t with version := v }, false) := by
                  simp only [bump, hv]
                constructor
                · intro t' ht'
                  rcases List.mem_cons.mp ht' with rfl | ht'
                  · rw [bumpMine, if_pos hm, hbump]
                  · exact hflag t' ht'
                · intro t' ht'
                  rw [← h] at ht'
                  rcases List.mem_cons.mp ht' with rfl | ht'
                  · exact ⟨t, List.mem_cons_self .., hm, by rw [hbump], hv⟩
                  · rcases hrest t' ht' with ⟨t₀, hmem, hrest⟩
                    exact ⟨t₀, List.mem_cons_of_mem _ hmem, hrest⟩
      · rw [if_neg hm] at h
        rcases ih touched h with ⟨hflag, hrest⟩
        constructor
        · intro t' ht'
          rcases List.mem_cons.mp ht' with rfl | ht'
          · rw [bumpMine, if_neg hm]
          · exact hflag t' ht'
        · intro t' ht'
          rcases hrest t' ht' with ⟨t₀, hmem, hrest⟩
          exact ⟨t₀, List.mem_cons_of_mem _ hmem, hrest⟩

theorem mem_gossipEach (ts : List Task) (o : Output) (h : o ∈ (gossipEach ts).1) :
    ∃ t ∈ ts, o = .gossip t := by
  induction ts with
  | nil => exact absurd h List.not_mem_nil
  | cons t ts ih =>
      unfold gossipEach at h
      split at h
      · rcases List.mem_cons.mp h with h | h
        · exact ⟨t, List.mem_cons_self .., h⟩
        · rcases ih h with ⟨t', ht', ho⟩
          exact ⟨t', List.mem_cons_of_mem _ ht', ho⟩
      · exact ⟨t, List.mem_cons_self .., List.mem_singleton.mp h⟩

/-- What recovery and shutdown send are the rewritten records, as the ledger
    now holds them. -/
theorem bumpAll_out (L : TaskLedger) (assign : Task → Task) (o : Output)
    (h : o ∈ (L.bumpAll assign).out) :
    ∃ k t t', o = .gossip t' ∧ L.tasks.get? k = some t ∧ L.isMine t = true ∧
      (L.bumpAll assign).ledger.tasks.get? k = some t' ∧ (bump assign t).1 = t' ∧
      t.version.incr = .ok t'.version := by
  have htasks := L.bumpAll_tasks assign
  unfold bumpAll at h
  cases hb : L.bumped assign L.tasks.values with
  | error e =>
      simp only [hb] at h
      exact absurd h List.not_mem_nil
  | ok touched =>
      simp only [hb] at h
      rcases L.bumped_ok assign _ _ hb with ⟨hflag, htouched⟩
      rcases mem_gossipEach touched o h with ⟨t', ht', ho⟩
      rcases htouched t' ht' with ⟨t, hmem, hm, hbump, hv⟩
      rcases (L.tasks.mem_values t).mp hmem with ⟨k, hk⟩
      refine ⟨k, t, t', ho, hk, hm, ?_, hbump, hv⟩
      -- Nothing was flagged, so every record was rewritten.
      rw [htasks, L.tasks.get?_mapUntil_of_unflagged _ hflag, hk, Option.map_some, bumpMine,
        if_pos hm, hbump]

/-! ## The merge -/

/-- A relay differs from the message in its hops. -/
theorem mem_relay {msg : Msg} {out : List Output} (h : relay msg = .ok out) :
    ∀ o ∈ out, ∃ hops, o = .relay (WhisperNet.assign (lit "hops") hops msg) := by
  intro o ho
  unfold relay at h
  split at h
  · rw [Except.ok.injEq] at h
    rw [← h] at ho
    split at ho
    · exact ⟨_, List.mem_singleton.mp ho⟩
    · exact (List.not_mem_nil ho).elim
  · rw [Except.ok.injEq] at h
    rw [← h] at ho
    split at ho
    · exact ⟨_, List.mem_singleton.mp ho⟩
    · exact (List.not_mem_nil ho).elim
  · rw [Except.ok.injEq] at h
    rw [← h] at ho
    exact (List.not_mem_nil ho).elim
  · exact (nomatch h)

/-- The merge leaves the records alone or installs the incoming one. -/
theorem mergeTask_cases (L : TaskLedger) (msg : Msg) (key : Key) (incoming : Task) :
    ((L.mergeTask msg key incoming).ledger.tasks = L.tasks ∧
      accepts (L.tasks.get? key) incoming ≠ .ok true ∧ (L.mergeTask msg key incoming).out = []) ∨
    ((L.mergeTask msg key incoming).ledger.tasks = L.tasks.set key incoming ∧
      accepts (L.tasks.get? key) incoming = .ok true ∧
      ∀ o ∈ (L.mergeTask msg key incoming).out, ∃ h,
        o = .relay (WhisperNet.assign (lit "hops") h msg)) := by
  unfold mergeTask
  cases ha : accepts (L.tasks.get? key) incoming with
  | error e => exact Or.inl ⟨rfl, by simp only [ne_eq, reduceCtorEq, not_false_eq_true], rfl⟩
  | ok b =>
      cases b with
      | false => exact Or.inl ⟨rfl, by simp only [ne_eq, Except.ok.injEq, Bool.false_eq_true,
          not_false_eq_true], rfl⟩
      | true =>
          right
          simp only []
          by_cases hl : L.logsOk (L.tasks.get? key) incoming = true
          · rw [if_pos hl]
            cases hr : relay msg with
            | error e => exact ⟨rfl, trivial, fun o ho => absurd ho List.not_mem_nil⟩
            | ok out => exact ⟨rfl, trivial, fun o ho => mem_relay hr o ho⟩
          · rw [if_neg hl]
            exact ⟨rfl, trivial, fun o ho => absurd ho List.not_mem_nil⟩

/-- The fields of a gossiped message, whether or not it was signed. -/
theorem gossip_fields {P : Primitives} {L : TaskLedger} {uuid : PyStr} {t : Task} {msg : Msg}
    (h : L.gossipTask P uuid t = .ok msg) :
    PyVal.get msg (lit "msg_id") = .str uuid ∧
      PyVal.get msg (lit "task") = .dict t.toDict := by
  unfold gossipTask Signer.sign at h
  cases hk : L.signer.privateKey with
  | none =>
      simp only [hk, Except.ok.injEq] at h
      rw [← h]
      exact ⟨rfl, rfl⟩
  | some k =>
      simp only [hk] at h
      split at h
      · exact absurd h (by simp only [reduceCtorEq, not_false_eq_true])
      · rw [Except.ok.injEq] at h
        rw [← h]
        exact ⟨rfl, rfl⟩

/-- What a gossip message can do: nothing, or install the record it carries
    after the signature check, under the key of that record. -/
theorem handleLedgerUpdate_cases (L : TaskLedger) (P : Primitives) (msg : Msg) :
    ((L.handleLedgerUpdate P msg).ledger.tasks = L.tasks ∧
      (L.handleLedgerUpdate P msg).out = []) ∨
    ∃ d incoming key, PyVal.get msg (lit "task") = .dict d ∧ Task.fromDict d = .ok incoming ∧
      hashKey incoming.taskId = .ok key ∧ verify P msg = true ∧
      accepts (L.tasks.get? key) incoming = .ok true ∧
      (L.handleLedgerUpdate P msg).ledger.tasks = L.tasks.set key incoming ∧
      ∀ o ∈ (L.handleLedgerUpdate P msg).out, ∃ h,
        o = .relay (WhisperNet.assign (lit "hops") h msg) := by
  unfold handleLedgerUpdate
  split
  · exact Or.inl ⟨rfl, rfl⟩
  · unfold handleFresh
    by_cases hv : verify P msg = false
    · rw [if_pos hv]
      exact Or.inl ⟨rfl, rfl⟩
    · rw [if_neg hv]
      by_cases ht : (PyVal.get msg (lit "task")).truthy = false
      · rw [if_pos ht]
        exact Or.inl ⟨rfl, rfl⟩
      · rw [if_neg ht]
        split
        · rename_i d hd
          cases hfd : Task.fromDict d with
          | error e => exact Or.inl ⟨rfl, rfl⟩
          | ok incoming =>
              simp only []
              cases hk : hashKey incoming.taskId with
              | error e => exact Or.inl ⟨rfl, rfl⟩
              | ok key =>
                  have hverify : verify P msg = true := Bool.not_eq_false _ ▸ hv
                  have hmerge := mergeTask_cases
                    { L with seenIds := L.seenIds.append (PyVal.get msg (lit "msg_id")) }
                    msg key incoming
                  -- Every guard has passed, so the merge decides.
                  rcases hmerge with h | h
                  · exact Or.inl ⟨h.1, h.2.2⟩
                  · exact Or.inr ⟨d, incoming, key, hd, hfd, hk, hverify, h.2.1, h.1, h.2.2⟩
        · exact Or.inl ⟨rfl, rfl⟩

end TaskLedger

end WhisperNet
