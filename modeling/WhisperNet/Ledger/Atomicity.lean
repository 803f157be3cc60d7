import WhisperNet.Ledger.Effects

/-!
# Calls That Raise

A claim and a completion assign the fields of the shared record one after the
other, and two of the steps between can raise: the digest, as a string with an
unpaired surrogate has no encoding, and the increment of a version that is no
number. Nothing is taken back. The record stays in progress or completed, under
its old version, neither written to the file nor sent to anyone. The gossip at
the end can raise as well, where it goes to a key that is a number, and by then
the record is written and saved.

So a claim leaves the ledger as it was on an error exactly where none of the
three can raise after the lease was found free. A completion has one more chance:
the record may hold what is being assigned to it already. If only the gossip raises
that takes a version that counting up leaves as it is, a float of 2 to the 53 or more.

## Main definitions

* `Free`: A task whose lease can be claimed.
* `TaskLedger.claimUnder`: What a claim tests before it writes.
* `Atomic`: An error leaves the records and the rescued counter alone.
* `Finished`: A record that holds what a completion would assign.
* `Stuck`: A version that counting up leaves as it is.

## Theorems

* `claimTask_free`, `claimTask_not_free`: A claim, by whether the lease is free.
* `claimTask_touches`: What a claim of a free task leaves is not what was there.
* `claimTask_true_iff`: When a claim succeeds.
* `claimTask_atomic_iff`, `completeTask_atomic_iff`: When each call is atomic.
* `atomic_iff`: The two together.
-/

namespace WhisperNet

open TaskLedger
open PyVal (lt)

/-- A task that is not completed and under no lease that still runs. -/
structure Free (task : Task) (now : ℚ) : Prop where
  unfinished : task.status ≠ .completed
  expired : task.status = .inProgress → lt task.leaseExpires (.float now) = .ok true

/-- The records and the rescued counter are as they were. -/
structure Untouched (L L' : TaskLedger) : Prop where
  tasks : L'.tasks = L.tasks
  rescued : L'.tasksRescued = L.tasksRescued

/-- If the call raises, itself or as it sends, nothing has changed. -/
def Atomic (L : TaskLedger) (o : Outcome Bool) (sends : Bool) : Prop :=
  ∀ e, o.sent sends = .error e → Untouched L o.ledger

theorem sent_true (o : Outcome Bool) : o.sent true = o.ret := if_pos (Or.inl rfl)

/-- A call that hands messages to a transport that raises gets the exception. -/
theorem sent_false {o : Outcome Bool} (h : o.out ≠ []) : o.sent false = .error .typeError := by
  rw [Outcome.sent, if_neg]
  rintro (hc | hc)
  · exact Bool.false_ne_true hc
  · exact h hc

/-- What raises by itself raises in any case. -/
theorem sent_error {o : Outcome Bool} {e : PyErr} (h : o.ret = .error e) (sends : Bool) :
    ∃ e', o.sent sends = .error e' := by
  unfold Outcome.sent
  split
  · exact ⟨e, h⟩
  · exact ⟨_, rfl⟩

/-! ## What raises -/

theorem digest16_ok_iff (s : PyStr) :
    (∃ c, digest16 s = .ok c) ↔ s.any isSurrogate = false := by
  unfold digest16 encode
  cases s.any isSurrogate with
  | true =>
      rw [if_pos rfl]
      exact ⟨fun h => (nomatch h.choose_spec), fun h => (nomatch h)⟩
  | false =>
      rw [if_neg Bool.false_ne_true]
      exact ⟨fun _ => rfl, fun _ => ⟨_, rfl⟩⟩

/-- A claim has a digest if the key of the node and the id have an encoding. -/
theorem commitmentText_encodable (key taskId : PyStr) (now : ℚ) :
    (commitmentText key taskId now).any isSurrogate = (key ++ taskId).any isSurrogate := by
  rw [commitmentText, List.any_append, List.any_append, List.any_append, List.any_append,
    lit_encodable, fixed6_encodable, List.any_append, Bool.or_false, Bool.or_false, Bool.or_false]

theorem incr_ok_iff (v : PyVal) : (∃ w, v.incr = .ok w) ↔ v.asNum.isSome = true := by
  cases v with
  | bool b => exact ⟨fun _ => rfl, fun _ => ⟨_, rfl⟩⟩
  | int n => exact ⟨fun _ => rfl, fun _ => ⟨_, rfl⟩⟩
  | float q => exact ⟨fun _ => rfl, fun _ => ⟨_, rfl⟩⟩
  | none => exact ⟨fun h => (nomatch h.choose_spec), fun h => (nomatch h)⟩
  | str s => exact ⟨fun h => (nomatch h.choose_spec), fun h => (nomatch h)⟩
  | list xs => exact ⟨fun h => (nomatch h.choose_spec), fun h => (nomatch h)⟩
  | dict kvs => exact ⟨fun h => (nomatch h.choose_spec), fun h => (nomatch h)⟩

/-- Counting up leaves the version as it is, which is then a large float. -/
def Stuck (v : PyVal) : Prop := v.incr = .ok v

example : Stuck (.float (2 ^ 53)) ∧ ¬ Stuck (.float (2 ^ 53 - 1)) := by
  unfold Stuck
  decide +kernel

/-! ## Claims -/

section Claims

variable {L : TaskLedger} {taskId : PyStr} {task : Task} {now : ℚ}

/-- The ledger with a rescue counted, if the task was somebody's. -/
def TaskLedger.counted (L : TaskLedger) (task : Task) : TaskLedger :=
  if task.status = .inProgress then { L with tasksRescued := L.tasksRescued + 1 } else L

/-- The tests of `claim_task` on the record under a key, before something is written. -/
def TaskLedger.claimUnder (L : TaskLedger) (k : Key) (now : ℚ)
    (write : TaskLedger → Task → Outcome Bool) : Outcome Bool :=
  match L.tasks.get? k with
  | none => { ret := .ok false, ledger := L }
  | some task =>
    if task.status = .completed then { ret := .ok false, ledger := L }
    else match wasOrphaned task now with
      | .error e => { ret := .error e, ledger := L }
      | .ok orphaned =>
        if task.status = .inProgress ∧ orphaned = false then
          { ret := .ok false, ledger := L }
        else
          let L' := if orphaned then { L with tasksRescued := L.tasksRescued + 1 } else L
          write L' task

theorem claimTask_under (L : TaskLedger) (taskId : PyStr) (now : ℚ) : L.claimTask taskId now =
    L.claimUnder (.str taskId) now (fun L' task => L'.claimFree taskId task now) := rfl

section Under

variable {k : Key} (write : TaskLedger → Task → Outcome Bool)

/-- A free task is counted, then written to. -/
theorem claimUnder_free (hf : L.tasks.get? k = some task) (hfree : Free task now) :
    L.claimUnder k now write = write (L.counted task) task := by
  unfold claimUnder counted
  simp only [hf, if_neg hfree.unfinished]
  by_cases hp : task.status = .inProgress
  · have horphaned : wasOrphaned task now = .ok true := by
      rw [wasOrphaned, if_pos hp, hfree.expired hp]
    simp only [horphaned, if_pos hp]
    rw [if_neg (fun hc => Bool.noConfusion hc.2)]
    rfl
  · have horphaned : wasOrphaned task now = .ok false := by rw [wasOrphaned, if_neg hp]
    simp only [horphaned, if_neg hp]
    rw [if_neg (fun hc => hp hc.1)]
    rfl

/-- A task that is not free is not touched. -/
theorem claimUnder_not_free (h : ∀ task, L.tasks.get? k = some task → ¬ Free task now) :
    (L.claimUnder k now write).ledger = L ∧ (L.claimUnder k now write).ret ≠ .ok true := by
  unfold claimUnder
  cases hf : L.tasks.get? k with
  | none => exact ⟨rfl, L.idle_false.ret⟩
  | some task =>
      simp only []
      by_cases hc : task.status = .completed
      · rw [if_pos hc]
        exact ⟨rfl, L.idle_false.ret⟩
      · rw [if_neg hc]
        cases ho : wasOrphaned task now with
        | error e => exact ⟨rfl, (L.idle_error e).ret⟩
        | ok orphaned =>
            simp only []
            rw [if_pos]
            · exact ⟨rfl, L.idle_false.ret⟩
            -- Otherwise the task would be free.
            by_contra hheld
            refine h task hf ⟨hc, fun hp => ?_⟩
            rw [wasOrphaned, if_pos hp] at ho
            cases orphaned with
            | true => exact ho
            | false => exact (hheld ⟨hp, rfl⟩).elim

end Under

/-- A free task is counted, then claimed. -/
theorem claimTask_free (hf : L.find? taskId = some task) (hfree : Free task now) :
    L.claimTask taskId now = (L.counted task).claimFree taskId task now := by
  rw [claimTask_under]
  exact claimUnder_free (fun L' task => L'.claimFree taskId task now) hf hfree

/-- A task that is not free is not touched. -/
theorem claimTask_not_free (h : ∀ task, L.find? taskId = some task → ¬ Free task now) :
    (L.claimTask taskId now).ledger = L ∧ (L.claimTask taskId now).ret ≠ .ok true := by
  rw [claimTask_under]
  exact claimUnder_not_free (fun L' task => L'.claimFree taskId task now) h

/-- The claim of a free task writes a lease of this node, whether it raises or not. -/
theorem claimFree_assigns (L : TaskLedger) (taskId : PyStr) (task : Task) (now : ℚ) :
    (L.claimFree taskId task now).ledger.tasksRescued = L.tasksRescued ∧
      ∃ new, (L.claimFree taskId task now).ledger.tasks = L.tasks.set (.str taskId) new ∧
        L.isMine new = true := by
  unfold claimFree
  cases digest16 (commitmentText L.ourKey taskId now) with
  | error e => exact ⟨rfl, _, rfl, (isMine_iff _ _).mpr ⟨rfl, rfl⟩⟩
  | ok c =>
      cases hv : task.version.incr with
      | error e =>
          simp only [hv]
          exact ⟨rfl, _, rfl, (isMine_iff _ _).mpr ⟨rfl, rfl⟩⟩
      | ok v =>
          simp only [hv]
          exact ⟨rfl, _, rfl, (isMine_iff _ _).mpr ⟨rfl, rfl⟩⟩

/-- It returns true and gossips the record, or raises. -/
theorem claimFree_cases (L : TaskLedger) (taskId : PyStr) (task : Task) (now : ℚ) :
    ((L.claimFree taskId task now).ret = .ok true ∧ (L.claimFree taskId task now).out ≠ [] ∧
        (L.ourKey ++ taskId).any isSurrogate = false ∧ task.version.asNum.isSome = true) ∨
      ((∃ e, (L.claimFree taskId task now).ret = .error e) ∧
        ¬ ((L.ourKey ++ taskId).any isSurrogate = false ∧ task.version.asNum.isSome = true)) := by
  have hdigest := digest16_ok_iff (commitmentText L.ourKey taskId now)
  rw [commitmentText_encodable] at hdigest
  have hcount := incr_ok_iff task.version
  unfold claimFree
  -- The commitment is made first, and then the version is counted up.
  cases hd : digest16 (commitmentText L.ourKey taskId now) with
  | error e =>
      refine Or.inr ⟨⟨e, rfl⟩, fun hc => ?_⟩
      rcases hdigest.mpr hc.1 with ⟨c, hok⟩
      rw [hd] at hok
      simp only [reduceCtorEq] at hok
  | ok c =>
      cases hv : task.version.incr with
      | error e =>
          simp only [hv]
          refine Or.inr ⟨⟨e, rfl⟩, fun hc => ?_⟩
          rcases hcount.mpr hc.2 with ⟨v, hok⟩
          rw [hv] at hok
          simp only [reduceCtorEq] at hok
      | ok v =>
          simp only [hv]
          exact Or.inl ⟨trivial, List.cons_ne_nil _ _, hdigest.mp ⟨c, hd⟩, hcount.mp ⟨v, hv⟩⟩

theorem counted_fields (L : TaskLedger) (task : Task) :
    (L.counted task).tasks = L.tasks ∧ (L.counted task).ourKey = L.ourKey := by
  unfold counted
  split
  · exact ⟨rfl, rfl⟩
  · exact ⟨rfl, rfl⟩

/-- A free task that is claimed is not left as it was. -/
theorem claimTask_touches (hf : L.find? taskId = some task) (hfree : Free task now) :
    ¬ Untouched L (L.claimTask taskId now).ledger := by
  rintro ⟨hsame, hcount⟩
  rcases claimFree_assigns (L.counted task) taskId task now with ⟨hrescued, new, hnew, hmine⟩
  rw [← claimTask_free hf hfree] at hrescued hnew
  by_cases hp : task.status = .inProgress
  · -- Its rescue was counted.
    rw [hcount, counted, if_pos hp] at hrescued
    dsimp only at hrescued
    omega
  · -- It was not in progress before.
    rw [hsame, (counted_fields L task).1] at hnew
    have hget := congrArg (fun d => Dict.get? d (.str taskId)) hnew
    simp only [Dict.get?_set_self] at hget
    rw [find?] at hf
    rw [hf, Option.some.injEq] at hget
    rw [hget] at hp
    exact hp ((isMine_iff _ _).mp hmine).2

/-- A claim is atomic if nothing can raise once the lease was found free. -/
theorem claimTask_atomic_iff (L : TaskLedger) (taskId : PyStr) (now : ℚ) (sends : Bool) :
    Atomic L (L.claimTask taskId now) sends ↔
      ∀ task, L.find? taskId = some task → Free task now →
        (L.ourKey ++ taskId).any isSurrogate = false ∧ task.version.asNum.isSome = true ∧
          sends = true := by
  constructor
  · intro hatomic task hf hfree
    have hcases := claimFree_cases (L.counted task) taskId task now
    rw [(counted_fields L task).2, ← claimTask_free hf hfree] at hcases
    rcases hcases with ⟨_, hout, hkey, hversion⟩ | ⟨⟨e, he⟩, _⟩
    · cases sends with
      | true => exact ⟨hkey, hversion, rfl⟩
      | false => exact (claimTask_touches hf hfree (hatomic _ (sent_false hout))).elim
    · rcases sent_error he sends with ⟨e', he'⟩
      exact (claimTask_touches hf hfree (hatomic e' he')).elim
  · intro hfine e he
    -- A claim that finds no free task touches nothing.
    by_cases hfree : ∃ task, L.find? taskId = some task ∧ Free task now
    · rcases hfree with ⟨task, hf, hfree⟩
      rcases hfine task hf hfree with ⟨hkey, hversion, hsends⟩
      have hcases := claimFree_cases (L.counted task) taskId task now
      rw [(counted_fields L task).2, ← claimTask_free hf hfree] at hcases
      rw [hsends, sent_true] at he
      rcases hcases with ⟨hok, _⟩ | ⟨_, hraises⟩
      · rw [hok] at he
        simp only [reduceCtorEq] at he
      · exact (hraises ⟨hkey, hversion⟩).elim
    · rw [(claimTask_not_free (fun task hf hf' => hfree ⟨task, hf, hf'⟩)).1]
      exact ⟨rfl, rfl⟩

/-- A claim returns true for a free task, if nothing raises. -/
theorem claimTask_true_iff (L : TaskLedger) (taskId : PyStr) (now : ℚ) :
    (L.claimTask taskId now).ret = .ok true ↔ ∃ task, L.find? taskId = some task ∧ Free task now ∧
      (L.ourKey ++ taskId).any isSurrogate = false ∧ task.version.asNum.isSome = true := by
  -- Of a task that is not free the claim returns false; of a free one it returns true or raises.
  by_cases hfree : ∃ task, L.find? taskId = some task ∧ Free task now
  · rcases hfree with ⟨task, hf, hfree⟩
    have hcases := claimFree_cases (L.counted task) taskId task now
    rw [(counted_fields L task).2, ← claimTask_free hf hfree] at hcases
    constructor
    · intro hok
      rcases hcases with ⟨_, _, hfine⟩ | ⟨⟨e, he⟩, _⟩
      · exact ⟨task, hf, hfree, hfine⟩
      · rw [hok] at he
        simp only [reduceCtorEq] at he
    · rintro ⟨task', hf', _, hfine⟩
      rw [hf, Option.some.injEq] at hf'
      rw [← hf'] at hfine
      rcases hcases with ⟨hok, _⟩ | ⟨_, hraises⟩
      · exact hok
      · exact (hraises hfine).elim
  · constructor
    · intro hok
      exact ((claimTask_not_free (fun task hf hf' => hfree ⟨task, hf, hf'⟩)).2 hok).elim
    · rintro ⟨task, hf, hf', _⟩
      exact (hfree ⟨task, hf, hf'⟩).elim

end Claims

/-! ## Completions -/

/-- A record that holds what a completion with this result would assign before
    it raises. -/
structure Finished (task : Task) (text : PyStr) (now : ℚ) : Prop where
  status : task.status = .completed
  result : task.result = .str text
  completedAt : task.completedAt = .float now
  resultHash : ∀ h, digest16 text = .ok h → task.resultHash = h

section Completions

variable {L : TaskLedger} {taskId : PyStr} {task : Task} (result : PyStr) (now : ℚ) (uuid : PyStr)

/-- The completion of a task of this node returns true with a new record, or raises
    with the record written. -/
theorem completeTask_mine (hf : L.find? taskId = some task)
    (hmine : task.leasedBy = .str L.ourKey) :
    ((L.completeTask taskId result now uuid).ret = .ok true ∧
        (L.completeTask taskId result now uuid).out ≠ [] ∧
        (result.any isSurrogate = false ∧ task.version.asNum.isSome = true) ∧
        (L.completeTask taskId result now uuid).ledger.tasksRescued = L.tasksRescued ∧
        ∃ new, (L.completeTask taskId result now uuid).ledger.tasks =
            L.tasks.set (.str taskId) new ∧
              (new = task ↔ Finished task result now ∧ Stuck task.version)) ∨
      ((∃ e, (L.completeTask taskId result now uuid).ret = .error e) ∧
        ¬ (result.any isSurrogate = false ∧ task.version.asNum.isSome = true) ∧
        (L.completeTask taskId result now uuid).ledger.tasksRescued = L.tasksRescued ∧
        ∃ new, (L.completeTask taskId result now uuid).ledger.tasks =
            L.tasks.set (.str taskId) new ∧ (new = task ↔ Finished task result now)) := by
  have hdigest := digest16_ok_iff result
  have hcount := incr_ok_iff task.version
  unfold completeTask
  simp only [hf, if_neg (not_not.mpr hmine)]
  -- Each of the two steps that can raise comes after the first assignments.
  cases hd : digest16 result with
  | error e =>
      refine Or.inr ⟨⟨e, rfl⟩, fun hc => ?_, rfl, _, rfl, ?_⟩
      · rcases hdigest.mpr hc.1 with ⟨c, hok⟩
        rw [hd] at hok
        simp only [reduceCtorEq] at hok
      · constructor
        · intro heq
          rw [← heq]
          exact ⟨rfl, rfl, rfl, fun h hh => by rw [hd] at hh; exact (nomatch hh)⟩
        · rintro ⟨hs, hr, ht, _⟩
          rw [← hs, ← hr, ← ht]
  | ok c =>
      cases hv : task.version.incr with
      | error e =>
          dsimp only
          refine Or.inr ⟨⟨e, rfl⟩, fun hc => ?_, rfl, _, rfl, ?_⟩
          · rcases hcount.mpr hc.2 with ⟨v, hok⟩
            rw [hv] at hok
            simp only [reduceCtorEq] at hok
          · constructor
            · intro heq
              rw [← heq]
              exact ⟨rfl, rfl, rfl, fun h hh => Except.ok.inj (hd.symm.trans hh)⟩
            · rintro ⟨hs, hr, ht, hh⟩
              rw [← hs, ← hr, ← ht, ← hh c hd]
      | ok v =>
          dsimp only
          refine Or.inl ⟨rfl, List.cons_ne_nil _ _, ⟨hdigest.mp ⟨c, hd⟩, hcount.mp ⟨v, hv⟩⟩, rfl, _,
            rfl, ?_⟩
          constructor
          · intro heq
            have hversion : v = task.version := congrArg Task.version heq
            refine ⟨?_, hv.trans (congrArg Except.ok hversion)⟩
            rw [← heq]
            exact ⟨rfl, rfl, rfl, fun h hh => Except.ok.inj (hd.symm.trans hh)⟩
          · rintro ⟨⟨hs, hr, ht, hh⟩, hstuck⟩
            rw [← hs, ← hr, ← ht, ← hh c hd, ← Except.ok.inj (hstuck.symm.trans hv)]

/-- A task of another node is not touched. -/
theorem completeTask_not_mine
    (h : ∀ task, L.find? taskId = some task → task.leasedBy ≠ .str L.ourKey) :
    (L.completeTask taskId result now uuid).ledger = L := by
  unfold completeTask
  cases hf : L.find? taskId with
  | none => rfl
  | some task =>
      simp only [if_pos (h task hf)]

/-- A completion is atomic if nothing can raise, or what raises finds that the record
    already holds what it assigns. -/
theorem completeTask_atomic_iff (L : TaskLedger) (taskId result : PyStr) (now : ℚ) (uuid : PyStr)
    (sends : Bool) :
    Atomic L (L.completeTask taskId result now uuid) sends ↔
      ∀ task, L.find? taskId = some task → task.leasedBy = .str L.ourKey →
        if result.any isSurrogate = false ∧ task.version.asNum.isSome = true then
          sends = true ∨ Finished task result now ∧ Stuck task.version
        else Finished task result now := by
  constructor
  · -- If the call raises, the record it wrote is the one that was there.
    intro hatomic task hf hmine
    have hwritten : ∀ e new, (L.completeTask taskId result now uuid).sent sends = .error e →
        (L.completeTask taskId result now uuid).ledger.tasks = L.tasks.set (.str taskId) new →
          new = task := by
      intro e new he hnew
      rw [(hatomic e he).tasks] at hnew
      have hget := congrArg (fun d => Dict.get? d (.str taskId)) hnew
      simp only [Dict.get?_set_self] at hget
      rw [find?] at hf
      rw [hf, Option.some.injEq] at hget
      exact hget.symm
    rcases completeTask_mine result now uuid hf hmine with
      ⟨_, hout, hfine, _, new, hnew, hsame⟩ | ⟨⟨e, he⟩, hraises, _, new, hnew, hsame⟩
    · rw [if_pos hfine]
      cases sends with
      | true => exact Or.inl rfl
      | false => exact Or.inr (hsame.mp (hwritten _ new (sent_false hout) hnew))
    · rw [if_neg hraises]
      rcases sent_error he sends with ⟨e', he'⟩
      exact hsame.mp (hwritten e' new he' hnew)
  · intro hcond e he
    by_cases hmine : ∃ task, L.find? taskId = some task ∧ task.leasedBy = .str L.ourKey
    · rcases hmine with ⟨task, hf, hmine⟩
      have hthis := hcond task hf hmine
      -- It raises, so by the condition the record was the finished one already.
      rcases completeTask_mine result now uuid hf hmine with
        ⟨hok, _, hfine, hrescued, new, hnew, hsame⟩ | ⟨_, hraises, hrescued, new, hnew, hsame⟩
      · rw [if_pos hfine] at hthis
        rcases hthis with hsent | hdone
        · rw [hsent, sent_true, hok] at he
          simp only [reduceCtorEq] at he
        · refine ⟨?_, hrescued⟩
          rw [hnew, hsame.mpr hdone]
          exact Dict.set_same L.tasks (.str taskId) task hf
      · rw [if_neg hraises] at hthis
        refine ⟨?_, hrescued⟩
        rw [hnew, hsame.mpr hthis]
        exact Dict.set_same L.tasks (.str taskId) task hf
    · have hsame := completeTask_not_mine result now uuid
        (fun task hf hm => hmine ⟨task, hf, hm⟩)
      rw [hsame]
      exact ⟨rfl, rfl⟩

end Completions

/-- A claim and a completion that raise leave every record and the rescued
    counter as they were, for one ledger and any strings, exactly if a claim of a
    free task finds an encoding for the key and the id, a number as version and a
    transport that takes its gossip, and a completion of an own task finds an encoding
    for the result, a number as version and such a transport, or nothing new to
    assign before it raises. -/
theorem atomic_iff (L : TaskLedger) (taskId result : PyStr) (now : ℚ) (uuid : PyStr)
    (sends sends' : Bool) :
    (Atomic L (L.claimTask taskId now) sends ∧
        Atomic L (L.completeTask taskId result now uuid) sends') ↔
      (∀ task, L.find? taskId = some task → Free task now →
        (L.ourKey ++ taskId).any isSurrogate = false ∧ task.version.asNum.isSome = true ∧
          sends = true) ∧
      ∀ task, L.find? taskId = some task → task.leasedBy = .str L.ourKey →
        if result.any isSurrogate = false ∧ task.version.asNum.isSome = true then
          sends' = true ∨ Finished task result now ∧ Stuck task.version
        else Finished task result now :=
  and_congr (claimTask_atomic_iff L taskId now sends)
    (completeTask_atomic_iff L taskId result now uuid sends')

namespace Unpaired

/-- Text with a surrogate that has no partner, as JSON can carry it. -/
def text : PyStr := [0xD800]

/-- A task under that id that nobody has claimed. -/
def task : Task :=
  { taskId := .str text, payload := .str (lit "p"), shardId := .int 1, status := .pending
    leasedBy := .none, leaseExpires := .float 0, result := .none, createdAt := .float 0
    version := .int 1 }

def ledger : TaskLedger where
  ourKey := lit "a"
  tasks := Dict.empty.set (.str text) task

/-- The claim raises, and the record stays in progress under its old version. -/
theorem half_claimed : ((∃ e, (ledger.claimTask text 10).ret = .error e) ∧
    ((ledger.claimTask text 10).ledger.find? text).map
        (fun t => (t.status, t.leasedBy, t.version)) =
      some (.inProgress, .str (lit "a"), .int 1)) ∧
    ¬ (Atomic ledger (ledger.claimTask text 10) true ∧
      Atomic ledger (ledger.completeTask text text 11 (lit "u")) true) := by
  have herror : (ledger.claimTask text 10).ret = .error .unicodeError := by decide +kernel
  have hstands : ((ledger.claimTask text 10).ledger.find? text).map
      (fun t => (t.status, t.leasedBy, t.version)) =
        some (.inProgress, .str (lit "a"), .int 1) := by
    decide +kernel
  refine ⟨⟨⟨_, herror⟩, hstands⟩, fun hatomic => ?_⟩
  have hsame := (hatomic.1 _ herror).tasks
  rw [find?, hsame] at hstands
  exact absurd hstands (by decide +kernel)

end Unpaired

end WhisperNet
