import WhisperNet.Ledger.Calls
import WhisperNet.Crypto.Reference
import WhisperNet.Lib.Machine

/-!
# Completed Records

How final a completed record is. The merge never replaces one, and neither do
claims, renewals, recovery and shutdown, which check the status. Three calls
do not check it: a submission overwrites whatever is filed under its id, a
release makes any record of this node pending again, and a completion rewrites
the result of any record of this node. `Harmless` is the condition on a step
that none of the three happens to the record in question, and `final_iff` says
that it is exact, over every run.

## Main definitions

* `StillCompleted`: The record is completed with the result, the digest and
  the holder it had.
* `Harmless`: The step is none of the three calls, on this record.
* `opStep`: One operation as a step of a machine.

## Theorems

* `completed_call_iff`: A call keeps a completed record exactly when harmless.
* `completed_update`: The merge keeps a completed record.
* `final_iff`: A record stays completed throughout a run exactly when every
  step of the run is harmless.
* `released_after_completion`: A run in which a completed record is lost.
-/

namespace WhisperNet

open TaskLedger

/-- The record of `k` is completed, with the attested values of `t`. -/
def StillCompleted (k : Key) (t : Task) (L : TaskLedger) : Prop :=
  ∃ t', L.tasks.get? k = some t' ∧ t'.status = .completed ∧ t'.result = t.result ∧
    t'.resultHash = t.resultHash ∧ t'.leasedBy = t.leasedBy

/-- The calls that lose a completed record are left out: a second submission
    under its id, a release by its holder, and a completion by its holder with
    another result or another digest. -/
def HarmlessCall (k : Key) (t : Task) (L : TaskLedger) : Call → Prop
  | .submitTask _ taskId _ _ _ => k ≠ .str taskId
  | .releaseLease taskId => k = .str taskId → t.leasedBy ≠ .str L.ourKey
  | .completeTask taskId result _ _ => k = .str taskId → t.leasedBy = .str L.ourKey →
      t.result = .str result ∧ ∀ h, digest16 result = .ok h → h = t.resultHash
  | _ => True

/-- A merge is always harmless. -/
def Harmless (k : Key) (t : Task) (L : TaskLedger) : Op → Prop
  | .call c => HarmlessCall k t L c
  | .update _ => True

/-- Every operation is possible in every state. -/
def opStep (P : Primitives) (L : TaskLedger) (op : Op) : Option TaskLedger := some (op.apply P L)

/-- A call whose edits spare completed records keeps them. -/
theorem stillCompleted_of_spared (P : Primitives) (L : TaskLedger) (c : Call) (k : Key) (t : Task)
    (h : StillCompleted k t L)
    (hspare : ∀ old new, L.tasks.get? k = some old → old.status = .completed →
      ¬ Edit L k (some old) new c) :
    StillCompleted k t (c.run P L).1 := by
  rcases h with ⟨t', ht', hs, hrest⟩
  rcases (run_edits P L c).record k with hsame | ⟨new, _, hedit, _⟩
  · exact ⟨t', by rw [hsame, ht'], hs, hrest⟩
  · rw [ht'] at hedit
    exact absurd hedit (hspare t' new ht' hs)

theorem not_isMine_of_completed (L : TaskLedger) (t : Task) (hs : t.status = .completed) :
    ¬ L.isMine t = true := by
  rw [isMine_iff, hs]
  rintro ⟨_, hc⟩
  exact absurd hc (by simp only [reduceCtorEq, not_false_eq_true])

/-- What a release does to a completed record. -/
theorem completed_releaseLease_iff (P : Primitives) (L : TaskLedger) (k : Key) (t : Task)
    (taskId : PyStr) (h : StillCompleted k t L) :
    StillCompleted k t ((Call.releaseLease taskId).run P L).1 ↔
      (k = .str taskId → t.leasedBy ≠ .str L.ourKey) := by
  rcases h with ⟨t', ht', hs, hr, hh, hl⟩
  rcases L.releaseLease_cases taskId with ⟨hidle, hother⟩ | ⟨old, new, hw, hmine, hpend, _⟩
  · have hkeep : (L.releaseLease taskId).ledger.tasks.get? k = some t' := by
      rw [hidle.tasks, ht']
    constructor
    · intro _ hk
      rw [hk] at ht'
      rw [← hl]
      exact hother t' ht'
    · exact fun _ => ⟨t', hkeep, hs, hr, hh, hl⟩
  · have hfound : L.tasks.get? (.str taskId) = some old := hw.found
    constructor
    · rintro ⟨t'', ht'', hs'', _⟩ hk
      -- The record is pending after the release.
      have hnow : (L.releaseLease taskId).ledger.tasks.get? k = some new := by
        rw [hw.tasks, hk, Dict.get?_set_self]
      have heq : new = t'' := Option.some.inj (hnow.symm.trans ht'')
      rw [← heq, hpend] at hs''
      exact absurd hs'' (by simp only [reduceCtorEq, not_false_eq_true])
    · intro hok
      have hk : k ≠ .str taskId := by
        intro hk
        rw [hk, hfound, Option.some.injEq] at ht'
        exact hok hk (by rw [← hl, ← ht', hmine])
      refine ⟨t', ?_, hs, hr, hh, hl⟩
      change (L.releaseLease taskId).ledger.tasks.get? k = some t'
      rw [hw.tasks, Dict.get?_set_of_ne _ _ _ _ hk, ht']

/-- What a completion does to a record that is completed already. -/
theorem completed_completeTask_iff (P : Primitives) (L : TaskLedger) (k : Key) (t : Task)
    (taskId result : PyStr) (now : ℚ) (uuid : PyStr) (h : StillCompleted k t L) :
    StillCompleted k t ((Call.completeTask taskId result now uuid).run P L).1 ↔
      (k = .str taskId → t.leasedBy = .str L.ourKey →
        t.result = .str result ∧ ∀ h, digest16 result = .ok h → h = t.resultHash) := by
  rcases h with ⟨t', ht', hs, hr, hh, hl⟩
  rcases L.completeTask_cases taskId result now uuid with
    ⟨hidle, hother⟩ | ⟨old, new, hw, hmine, hcomp, hholder, _, hres, hdig⟩
  · -- An idle completion leaves the record, whoever holds it.
    have hkeep : (L.completeTask taskId result now uuid).ledger.tasks.get? k = some t' := by
      rw [hidle.tasks, ht']
    constructor
    · intro _ hk hown
      rw [hk] at ht'
      exact absurd (by rw [hl, hown]) (hother t' ht')
    · exact fun _ => ⟨t', hkeep, hs, hr, hh, hl⟩
  · have hfound : L.tasks.get? (.str taskId) = some old := hw.found
    -- It writes one record, so only that one matters.
    by_cases hk : k = .str taskId
    · have hold : t' = old := by
        rw [hk, hfound, Option.some.injEq] at ht'
        exact ht'.symm
      have hnow : ((Call.completeTask taskId result now uuid).run P L).1.tasks.get? k
          = some new := by
        change (L.completeTask taskId result now uuid).ledger.tasks.get? k = some new
        rw [hw.tasks, hk, Dict.get?_set_self]
      rw [hold] at hr hh hl
      constructor
      · rintro ⟨t'', ht'', _, hr'', hh'', _⟩ _ _
        have heq : new = t'' := Option.some.inj (hnow.symm.trans ht'')
        rw [← heq] at hr'' hh''
        refine ⟨by rw [← hr'', hres], fun d hd => ?_⟩
        rcases hdig with ⟨e, he, _⟩ | hok
        · rw [hd] at he
          exact absurd he (by simp only [reduceCtorEq, not_false_eq_true])
        · rw [hok, Except.ok.injEq] at hd
          rw [← hd, hh'']
      · intro hok
        rcases hok hk (by rw [← hl, hmine]) with ⟨hrt, hht⟩
        refine ⟨new, hnow, hcomp, by rw [hres, hrt], ?_, by rw [hholder, hl]⟩
        rcases hdig with ⟨e, _, hkept⟩ | hnew
        · rw [hkept, hh]
        · exact hht _ hnew
    · refine ⟨fun _ hc => absurd hc hk, fun _ => ⟨t', ?_, hs, hr, hh, hl⟩⟩
      change (L.completeTask taskId result now uuid).ledger.tasks.get? k = some t'
      rw [hw.tasks, Dict.get?_set_of_ne _ _ _ _ hk, ht']

/-- A call keeps a completed record exactly when it is harmless. -/
theorem completed_call_iff (P : Primitives) (L : TaskLedger) (c : Call) (k : Key) (t : Task)
    (h : StillCompleted k t L) :
    StillCompleted k t (c.run P L).1 ↔ HarmlessCall k t L c := by
  cases c with
  | submitTask env taskId payload shardId submitterKey =>
      constructor
      · rintro ⟨t'', ht'', hs'', _⟩ hk
        -- A submission files a pending record.
        have hnow :
            ((Call.submitTask env taskId payload shardId submitterKey).run P L).1.tasks.get? k
            = some (L.submittedTask P env taskId payload shardId submitterKey) := by
          rw [hk]
          exact Dict.get?_set_self _ _ _
        rw [hnow, Option.some.injEq] at ht''
        rw [← ht''] at hs''
        exact absurd hs'' (fun hc => nomatch hc)
      · intro hk
        exact stillCompleted_of_spared P L _ k t h (fun old new _ _ hedit => hk hedit.1)
  | claimTask taskId now =>
      refine ⟨fun _ => trivial, fun _ => stillCompleted_of_spared P L _ k t h ?_⟩
      rintro old new _ hs ⟨_, t', ht', hc, _⟩
      rw [Option.some.injEq] at ht'
      exact hc (by rw [← ht', hs])
  | renewLease taskId now =>
      refine ⟨fun _ => trivial, fun _ => stillCompleted_of_spared P L _ k t h ?_⟩
      rintro old new _ hs ⟨_, t', ht', hm, _⟩
      rw [Option.some.injEq] at ht'
      exact not_isMine_of_completed L t' (by rw [← ht', hs]) hm
  | completeTask taskId result now uuid =>
      exact completed_completeTask_iff P L k t taskId result now uuid h
  | releaseLease taskId => exact completed_releaseLease_iff P L k t taskId h
  | releaseAllLeases =>
      refine ⟨fun _ => trivial, fun _ => stillCompleted_of_spared P L _ k t h ?_⟩
      rintro old new _ hs ⟨t', ht', hm, _⟩
      rw [Option.some.injEq] at ht'
      exact not_isMine_of_completed L t' (by rw [← ht', hs]) hm
  | recoverIdentity now =>
      refine ⟨fun _ => trivial, fun _ => stillCompleted_of_spared P L _ k t h ?_⟩
      rintro old new _ hs ⟨t', ht', hm, _⟩
      rw [Option.some.injEq] at ht'
      exact not_isMine_of_completed L t' (by rw [← ht', hs]) hm

/-- The merge keeps a completed record. -/
theorem completed_update (P : Primitives) (L : TaskLedger) (msg : Msg) (k : Key) (t : Task)
    (h : StillCompleted k t L) :
    StillCompleted k t (L.handleLedgerUpdate P msg).ledger := by
  rcases h with ⟨t', ht', hs, hrest⟩
  rcases L.handleLedgerUpdate_cases P msg with ⟨hsame, _⟩ |
      ⟨d, incoming, key, _, _, _, _, hacc, hset, _⟩
  · exact ⟨t', by rw [hsame, ht'], hs, hrest⟩
  · have hk : k ≠ key := by
      intro hk
      rw [← hk, ht', accepts, if_pos hs] at hacc
      exact absurd hacc (by simp only [Except.ok.injEq, Bool.false_eq_true, not_false_eq_true])
    exact ⟨t', by rw [hset, Dict.get?_set_of_ne _ _ _ _ hk, ht'], hs, hrest⟩

/-- A completed record keeps its status, result, digest and holder throughout a
    run exactly when every step of the run is harmless to it. -/
theorem final_iff (P : Primitives) (L : TaskLedger) (k : Key) (t : Task) (ops : List Op)
    (ht : L.tasks.get? k = some t) (hs : t.status = .completed) :
    Machine.Throughout (opStep P) (StillCompleted k t) L ops ↔
      Machine.Along (opStep P) (Harmless k t) L ops := by
  refine Machine.throughout_iff_along (opStep P) (StillCompleted k t) (Harmless k t) ?_ L ops
    ⟨t, ht, hs, rfl, rfl, rfl⟩
  intro L₁ op L₂ hL hstep
  rw [opStep, Option.some.injEq] at hstep
  rw [← hstep]
  cases op with
  | call c => exact completed_call_iff P L₁ c k t hL
  | update msg => exact ⟨fun _ => trivial, fun _ => completed_update P L₁ msg k t hL⟩

namespace Completed

/-- A record this node completed. -/
def done : Task where
  taskId := .str (lit "t")
  payload := .str (lit "p")
  shardId := .int 1
  status := .completed
  leasedBy := .str (lit "a")
  leaseExpires := .float 30
  result := .str (lit "r")
  createdAt := .float 0
  version := .int 3

/-- A ledger that holds it. -/
def ledger : TaskLedger :=
  { ourKey := lit "a", tasks := Dict.empty.set (.str (lit "t")) done }

theorem final_iff_claim :
    Machine.Throughout (opStep reference) (StillCompleted (.str (lit "t")) done) ledger
        [.call (.claimTask (lit "t") 50)] ↔
      Machine.Along (opStep reference) (Harmless (.str (lit "t")) done) ledger
        [.call (.claimTask (lit "t") 50)] :=
  final_iff reference ledger (.str (lit "t")) done _ (by decide) rfl

/-- Submit, claim, complete. -/
def job : List Op :=
  [.call (.submitTask SubmitEnv.plain (lit "t") (lit "p") 1 .none), .call (.claimTask (lit "t") 1),
   .call (.completeTask (lit "t") (lit "r") 2 (lit "u"))]

/-- The status of the task after some operations of a fresh node. -/
noncomputable def statusAfter (ops : List Op) : Option Status :=
  (Machine.run (opStep reference) { ourKey := lit "a" } ops).bind
    (fun L => (L.find? (lit "t")).map Task.status)

/-- The node completes the task, and its release then makes it pending. -/
theorem released_after_completion :
    statusAfter job = some .completed ∧
      statusAfter (job ++ [.call (.releaseLease (lit "t"))]) = some .pending := by
  decide +kernel

end Completed

end WhisperNet
