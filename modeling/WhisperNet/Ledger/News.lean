import Mathlib.Data.Fintype.Order
import Mathlib.Order.WithBot
import WhisperNet.Ledger.Completed
import WhisperNet.Ledger.Convergence
import WhisperNet.Ledger.Restart
import WhisperNet.Lib.Absorb

/-!
# What a Ledger Has Heard

How far the tasks of a ledger have come, and that this is nothing but what the
ledger was told. A record says of its key that the task exists, or that it is
completed, and these are joined. A careful call leaves a ledger with the
progress it had, joined with the records it gossips; an update it has not seen
leaves it with the progress joined with the record it carries, whether the
merge installs the record or not. So two ledgers that heard of the same tasks
hold the same tasks, however they heard of them, and the same holds of the
completed ones.

Versions and leases play no part. A merge that keeps the record it has keeps a
record of the same key, and a completed record is taken over unless the one
held is completed too.

A restart keeps the progress as well, since the file is in step with it: what
raises between an assignment and the write of the file assigned a lease, which
is no progress. A completion that raises is, so a careful one does not.

## Main definitions

* `Has`, `Done`: A key has a record, or a completed one.
* `progress`: The two as one value.
* `Task.tells`: What a record says about a key.
* `gossips`: The records a ledger gossips on its own behalf.
* `Regular`: A record as the operations of a ledger make it.
* `Kept`: Regular records, in the ledger and in its file, with the same progress.
* `Careful`: The calls that lose no progress and make none in secret.

## Theorems

* `progress_eq_iff`: Equal progress is holding and having completed the same.
* `gathered_ne_bot_iff`, `gathered_eq_true_iff`: What some news say of a task.
* `Files.absorbs`: Filing a record is absorbing it.
* `run_absorbs`, `update_absorbs`: A careful call absorbs what it gossips, and an
  update what it carries.
* `run_kept`, `update_kept`, `load_kept`: The file stays in step.
-/

namespace WhisperNet

open TaskLedger
open PyVal (get)

/-- The ledger has a record under the key. -/
def Has (L : TaskLedger) (k : Key) : Prop := ∃ t, L.tasks.get? k = some t

/-- The ledger has a completed record under the key. -/
def Done (L : TaskLedger) (k : Key) : Prop := ∃ t, L.tasks.get? k = some t ∧ t.Completed

/-- A record exists, and whether it is completed. -/
def stage (t : Task) : WithBot Bool := (decide t.Completed : Bool)

/-- How far the task of a key has come: unknown, open or completed. -/
def progress (L : TaskLedger) (k : Key) : WithBot Bool :=
  match L.tasks.get? k with
  | none => ⊥
  | some t => stage t

/-- What a record says about a key. -/
def Task.tells (t : Task) (k : Key) : WithBot Bool :=
  if hashKey t.taskId = .ok k then stage t else ⊥

/-- The records a ledger gossips on its own behalf. -/
def gossips (out : List Output) : List Task :=
  out.filterMap (fun o => match o with
    | .gossip t => some t
    | _ => none)

/-- A record as the operations of a ledger make it: the id and the holder are
    texts and the version is an integer. -/
structure Regular (taskId : PyStr) (t : Task) : Prop where
  id : t.taskId = .str taskId
  holder : t.leasedBy = .none ∨ ∃ x, t.leasedBy = .str x
  version : t.version = .int t.rank

/-- The records are regular, the file holds regular records, and a restart finds
    the progress that was made. -/
structure Kept (L : TaskLedger) : Prop where
  filed : FiledAs Regular L
  stored : StoredAs Regular L.disk
  inStep : ∀ k, progress L.load k = progress L k

/-- The calls that lose no progress and make none in secret: a submission of an
    id that is not completed, a release of a record that is not, and a
    completion whose result can be encoded. -/
def Careful (L : TaskLedger) : Call → Prop
  | .submitTask _ taskId _ _ _ => ¬ Done L (.str taskId)
  | .releaseLease taskId => ∀ t, L.find? taskId = some t → t.leasedBy = .str L.ourKey →
      ¬ t.Completed
  | .completeTask taskId result _ _ => ∀ t, L.find? taskId = some t →
      t.leasedBy = .str L.ourKey → ∃ h, digest16 result = .ok h
  | _ => True

instance (L : TaskLedger) (k : Key) : Decidable (Has L k) :=
  decidable_of_iff ((L.tasks.get? k).isSome = true) Option.isSome_iff_exists

instance (L : TaskLedger) (k : Key) : Decidable (Done L k) :=
  decidable_of_iff (∃ t ∈ L.tasks.get? k, t.Completed) Iff.rfl

instance (L : TaskLedger) (c : Call) : Decidable (Careful L c) :=
  match c with
  | .submitTask _ taskId _ _ _ => inferInstanceAs (Decidable (¬ Done L (.str taskId)))
  | .releaseLease taskId => decidable_of_iff (∀ t ∈ L.find? taskId,
      t.leasedBy = .str L.ourKey → ¬ t.Completed) Iff.rfl
  | .completeTask taskId result _ _ => decidable_of_iff (∀ t ∈ L.find? taskId,
      t.leasedBy = .str L.ourKey → (digest16 result).isOk = true) (by
        have hok : (digest16 result).isOk = true ↔ ∃ h, digest16 result = .ok h := by
          cases digest16 result with
          | ok h => exact ⟨fun _ => ⟨h, rfl⟩, fun _ => rfl⟩
          | error e => exact ⟨fun hc => (nomatch hc), fun ⟨_, hc⟩ => (nomatch hc)⟩
        rw [hok]
        rfl)
  | .claimTask _ _ | .renewLease _ _ | .releaseAllLeases | .recoverIdentity _ => isTrue trivial

/-! ## Progress -/

theorem stage_ne_bot (t : Task) : stage t ≠ ⊥ := WithBot.coe_ne_bot

theorem stage_eq_true_iff (t : Task) : stage t = (true : Bool) ↔ t.Completed := by
  unfold stage
  rw [WithBot.coe_inj, decide_eq_true_iff]

theorem progress_ne_bot_iff (L : TaskLedger) (k : Key) : progress L k ≠ ⊥ ↔ Has L k := by
  unfold progress Has
  cases L.tasks.get? k with
  | none => exact ⟨fun h => absurd rfl h, fun ⟨t, ht⟩ => nomatch ht⟩
  | some t => exact ⟨fun _ => ⟨t, rfl⟩, fun _ => stage_ne_bot t⟩

theorem progress_eq_true_iff (L : TaskLedger) (k : Key) :
    progress L k = (true : Bool) ↔ Done L k := by
  unfold progress Done
  cases L.tasks.get? k with
  | none => exact ⟨fun h => absurd h.symm WithBot.coe_ne_bot, fun ⟨t, ht, _⟩ => nomatch ht⟩
  | some t =>
      constructor
      · intro h
        exact ⟨t, rfl, (stage_eq_true_iff t).mp h⟩
      · rintro ⟨t', ht', hdone⟩
        rw [Option.some.inj ht']
        exact (stage_eq_true_iff t').mpr hdone

/-- The three stages are told apart by two questions. -/
theorem eq_iff_questions (x y : WithBot Bool) :
    x = y ↔ (x ≠ ⊥ ↔ y ≠ ⊥) ∧ (x = (true : Bool) ↔ y = (true : Bool)) := by
  constructor
  · intro h
    rw [h]
    exact ⟨Iff.rfl, Iff.rfl⟩
  · intro h
    cases x with
    | bot =>
        by_contra hne
        exact h.1.mpr (fun hy => hne hy.symm) rfl
    | coe b =>
        cases y with
        | bot => exact absurd rfl (h.1.mp WithBot.coe_ne_bot)
        | coe c =>
            simp only [WithBot.coe_inj] at h ⊢
            exact Bool.eq_iff_iff.mpr h.2

theorem progress_eq_iff (L L' : TaskLedger) (k : Key) :
    progress L k = progress L' k ↔ (Has L k ↔ Has L' k) ∧ (Done L k ↔ Done L' k) := by
  rw [eq_iff_questions, progress_ne_bot_iff, progress_ne_bot_iff, progress_eq_true_iff,
    progress_eq_true_iff]

theorem progress_of_tasks {L L' : TaskLedger} (h : L'.tasks = L.tasks) (k : Key) :
    progress L' k = progress L k := by
  unfold progress
  rw [h]

theorem progress_set {L L' : TaskLedger} {k : Key} {t : Task} (h : L'.tasks = L.tasks.set k t)
    (k' : Key) : progress L' k' = if k' = k then stage t else progress L k' := by
  unfold progress
  rw [h, Dict.get?_set]
  by_cases hk : k' = k
  · rw [if_pos hk, if_pos hk]
  · rw [if_neg hk, if_neg hk]

/-- What is not completed is at most open. -/
theorem progress_le_open {L : TaskLedger} {k : Key} (h : ¬ Done L k) :
    progress L k ≤ (false : Bool) := by
  rw [← progress_eq_true_iff] at h
  cases hp : progress L k with
  | bot => exact bot_le
  | coe b =>
      cases b with
      | false => exact le_refl _
      | true => exact absurd hp h

theorem open_le_stage (t : Task) : (false : Bool) ≤ stage t :=
  WithBot.coe_le_coe.mpr (Bool.false_le _)

/-- A record says what the ledger that holds it shows. -/
theorem tells_le_progress {L : TaskLedger} {t : Task} {key : Key} (ht : L.tasks.get? key = some t)
    (hkey : hashKey t.taskId = .ok key) (k : Key) : t.tells k ≤ progress L k := by
  unfold Task.tells progress
  by_cases hk : hashKey t.taskId = .ok k
  · have hkk : key = k := Except.ok.inj (hkey.symm.trans hk)
    rw [if_pos hk, ← hkk, ht]
  · rw [if_neg hk]
    exact bot_le

theorem tells_ne_bot_iff (t : Task) (k : Key) : t.tells k ≠ ⊥ ↔ hashKey t.taskId = .ok k := by
  unfold Task.tells
  by_cases hk : hashKey t.taskId = .ok k
  · rw [if_pos hk]
    exact ⟨fun _ => hk, fun _ => stage_ne_bot t⟩
  · rw [if_neg hk]
    exact ⟨fun h => absurd rfl h, fun h => absurd h hk⟩

theorem tells_eq_true_iff (t : Task) (k : Key) :
    t.tells k = (true : Bool) ↔ hashKey t.taskId = .ok k ∧ t.Completed := by
  unfold Task.tells
  by_cases hk : hashKey t.taskId = .ok k
  · rw [if_pos hk, stage_eq_true_iff]
    exact ⟨fun h => ⟨hk, h⟩, fun h => h.2⟩
  · rw [if_neg hk]
    exact ⟨fun h => absurd h.symm WithBot.coe_ne_bot, fun h => absurd h.1 hk⟩

/-- Some news is about the task. -/
theorem gathered_ne_bot_iff (ts : List Task) (k : Key) :
    Absorb.gathered Task.tells ts k ≠ ⊥ ↔ ∃ t ∈ ts, hashKey t.taskId = .ok k := by
  induction ts with
  | nil => exact ⟨fun h => absurd rfl h, fun ⟨t, ht, _⟩ => absurd ht List.not_mem_nil⟩
  | cons t ts ih =>
      have hcons : Absorb.gathered Task.tells (t :: ts) k =
          t.tells k ⊔ Absorb.gathered Task.tells ts k := rfl
      rw [hcons, ne_eq, sup_eq_bot_iff, not_and_or, ← ne_eq, ← ne_eq, ih, tells_ne_bot_iff]
      simp only [List.mem_cons, exists_eq_or_imp]

/-- Some news completes the task. -/
theorem gathered_eq_true_iff (ts : List Task) (k : Key) :
    Absorb.gathered Task.tells ts k = (true : Bool) ↔
      ∃ t ∈ ts, hashKey t.taskId = .ok k ∧ t.Completed := by
  induction ts with
  | nil =>
      exact ⟨fun h => absurd h.symm WithBot.coe_ne_bot,
        fun ⟨t, ht, _⟩ => absurd ht List.not_mem_nil⟩
  | cons t ts ih =>
      have hcons : Absorb.gathered Task.tells (t :: ts) k =
          t.tells k ⊔ Absorb.gathered Task.tells ts k := rfl
      have htop : ∀ x y : WithBot Bool,
          x ⊔ y = (true : Bool) ↔ x = (true : Bool) ∨ y = (true : Bool) := fun _ _ => max_eq_top
      rw [hcons, htop, ih, tells_eq_true_iff]
      simp only [List.mem_cons, exists_eq_or_imp]

theorem mem_gossips (out : List Output) (t : Task) : t ∈ gossips out ↔ .gossip t ∈ out := by
  unfold gossips
  rw [List.mem_filterMap]
  constructor
  · rintro ⟨o, ho, hot⟩
    cases o with
    | gossip t' =>
        rw [← Option.some.inj hot]
        exact ho
    | relay msg => exact (nomatch hot)
    | taskResult dest msg => exact (nomatch hot)
    | localResult msg => exact (nomatch hot)
  · exact fun h => ⟨_, h, rfl⟩

/-- `L'` is `L` with a record filed under its own id, which takes nothing back,
    and the file holds the outcome. -/
structure Files (L L' : TaskLedger) (k : Key) (t : Task) : Prop where
  tasks : L'.tasks = L.tasks.set k t
  key : hashKey t.taskId = .ok k
  le : progress L k ≤ stage t
  written : L'.disk = L'.persist.disk

/-- Filing a record is absorbing it. -/
theorem Files.absorbs {L L' : TaskLedger} {key : Key} {t : Task} {news : List Task}
    (h : Files L L' key t) (ht : t ∈ news) (hknown : ∀ a ∈ news, ∀ k, a.tells k ≤ progress L' k) :
    Absorb.Absorbs Task.tells (progress L) (progress L') news := by
  refine Absorb.absorbs_of_le _ (fun k => ?_) hknown (fun k => ?_)
  · rw [progress_set h.tasks]
    by_cases hk : k = key
    · rw [if_pos hk, hk]
      exact h.le
    · rw [if_neg hk]
  · rw [progress_set h.tasks]
    by_cases hk : k = key
    · rw [if_pos hk]
      have htells : t.tells k = stage t := by
        unfold Task.tells
        rw [if_pos (by rw [h.key, hk])]
      rw [← htells]
      exact (Absorb.le_gathered _ ht k).trans le_sup_right
    · rw [if_neg hk]
      exact le_sup_left

/-! ## The file -/

theorem FiledAs.textKeys {L : TaskLedger} (h : FiledAs Regular L) : TextKeys L := by
  intro k t ht
  rcases h k t ht with ⟨taskId, hk, hreg⟩
  exact ⟨taskId, hk, hreg.id⟩

theorem FiledAs.hashKey {L : TaskLedger} (h : FiledAs Regular L) {k : Key} {t : Task}
    (ht : L.tasks.get? k = some t) : hashKey t.taskId = .ok k := by
  rcases h k t ht with ⟨taskId, hk, hreg⟩
  rw [hreg.id, hk]
  rfl

theorem load_of_disk {L L' : TaskLedger} (h : L'.disk = L.disk) : L'.load.tasks = L.load.tasks := by
  unfold load
  rw [h]

/-- The file is in step again if it was written, or was in step and there was no
    progress. -/
theorem Kept.next {L L' : TaskLedger} (hL : Kept L) (hfiled : FiledAs Regular L')
    (hfile : FileKept L L')
    (h : L'.disk = L'.persist.disk ∨ ∀ k, progress L' k = progress L k) : Kept L' := by
  refine ⟨hfiled, stored_of_kept hfile hL.stored hfiled.written, fun k => ?_⟩
  have hwritten : L'.disk = L'.persist.disk → progress L'.load k = progress L' k := fun hdisk =>
    progress_of_tasks ((load_of_disk (L := L'.persist) hdisk).trans
      (load_persist hfiled.textKeys)) k
  rcases h with hdisk | hsame
  · exact hwritten hdisk
  · rcases hfile with hdisk | hdisk
    · rw [hsame k, ← hL.inStep k]
      exact progress_of_tasks (load_of_disk hdisk) k
    · exact hwritten hdisk

/-- A process that starts anew has the progress the old one had. -/
theorem load_kept {L : TaskLedger} (h : Kept L) :
    Kept L.load ∧ ∀ k, progress L.load k = progress L k :=
  ⟨⟨load_filed h.stored, h.stored, fun _ => rfl⟩, h.inStep⟩

/-! ## Calls -/

theorem rank_of_int {t : Task} {n : Int} (h : t.version = .int n) : t.version = .int t.rank := by
  unfold Task.rank
  rw [h]

/-- Calls leave regular records. -/
theorem run_filed (P : Primitives) {L : TaskLedger} (c : Call) (h : FiledAs Regular L) :
    FiledAs Regular (c.run P L).1 := by
  intro k t ht
  rcases (run_edits P L c).record k with hsame | ⟨new, hnew, hedit, hcount⟩
  · exact h k t (by rw [← hsame, ht])
  · rw [ht, Option.some.injEq] at hnew
    rcases run_textKeys P L c h.textKeys k t ht with ⟨taskId, hk, hid⟩
    rw [← hnew] at hedit hcount
    have hholder : t.leasedBy = .none ∨ ∃ x, t.leasedBy = .str x := by
      rcases edit_holder hedit with ⟨hours, _⟩ | ⟨hnone, _⟩
      · exact Or.inr ⟨_, hours⟩
      · exact Or.inl hnone
    have hversion : ∃ n, t.version = .int n := by
      cases hc : c.isSubmit with
      | true =>
          cases c with
          | submitTask env taskId payload shardId submitterKey => exact ⟨1, hedit.2.2.2.2.2⟩
          | _ => exact (nomatch hc)
      | false =>
          -- One more than an integer, or the same.
          rcases hcount hc with ⟨old, hold, hstep⟩
          rcases h k old hold with ⟨_, _, hreg⟩
          rw [hreg.version] at hstep
          rcases hstep with hincr | hsame
          · exact ⟨_, (Except.ok.inj hincr).symm⟩
          · exact ⟨_, hsame⟩
    exact ⟨taskId, hk, hid, hholder, rank_of_int hversion.choose_spec⟩

/-- What a call gossips is what its ledger then holds. -/
theorem gossips_known (P : Primitives) {L : TaskLedger} (c : Call) (h : FiledAs Regular L) :
    ∀ t ∈ gossips (c.run P L).2, ∀ k, t.tells k ≤ progress (c.run P L).1 k := by
  intro t ht k
  rcases (run_edits P L c).gossip t ((mem_gossips _ t).mp ht) with ⟨key, hkey, _⟩
  exact tells_le_progress hkey ((run_filed P c h).hashKey hkey) k

/-- A call whose edits neither complete a task nor reopen one makes no progress. -/
theorem progress_of_level (P : Primitives) (L : TaskLedger) (c : Call)
    (hlevel : ∀ k new, Edit L k (L.tasks.get? k) new c →
      ∃ old, L.tasks.get? k = some old ∧ ¬ old.Completed ∧ ¬ new.Completed) (k : Key) :
    progress (c.run P L).1 k = progress L k := by
  unfold progress
  rcases (run_edits P L c).record k with hsame | ⟨new, hnew, hedit, _⟩
  · rw [hsame]
  · rcases hlevel k new hedit with ⟨old, hold, hopen, hopen'⟩
    simp only [hnew, hold, stage, hopen, hopen', decide_false]

theorem open_of_isMine {L : TaskLedger} {t : Task} (h : L.isMine t = true) : ¬ t.Completed :=
  fun hdone => not_isMine_of_completed L t hdone h

theorem open_of_pending {t : Task} (h : t.status = .pending) : ¬ t.Completed := by
  unfold Task.Completed
  rw [h]
  exact fun hc => nomatch hc

theorem open_of_inProgress {t : Task} (h : t.status = .inProgress) : ¬ t.Completed := by
  unfold Task.Completed
  rw [h]
  exact fun hc => nomatch hc

/-- A completion that can encode its result writes a completed record. -/
theorem completeTask_files {L : TaskLedger} (hf : FiledAs Regular L) {taskId result : PyStr}
    {now : ℚ} {uuid : PyStr} {old : Task} (hfound : L.find? taskId = some old)
    (hmine : old.leasedBy = .str L.ourKey) {h : PyVal} (hdigest : digest16 result = .ok h) :
    ∃ new, Files L (L.completeTask taskId result now uuid).ledger (.str taskId) new ∧
      new ∈ gossips (L.completeTask taskId result now uuid).out := by
  rcases hf _ old hfound with ⟨_, _, hreg⟩
  have hincr : old.version.incr = .ok (.int (old.rank + 1)) := by
    rw [hreg.version]
    rfl
  unfold completeTask
  simp only [hfound, hmine, ne_eq, not_true_eq_false, if_false, hdigest, hincr]
  refine ⟨_, ⟨rfl, ?_, ?_, rfl⟩, (mem_gossips _ _).mpr (List.mem_cons_self ..)⟩
  · exact (hf.hashKey hfound : hashKey old.taskId = _)
  · exact le_top

/-- A careful call makes no progress, or files a record that it gossips. -/
theorem run_progress (P : Primitives) {L : TaskLedger} {c : Call} (hf : FiledAs Regular L)
    (hc : Careful L c) :
    (∀ k, progress (c.run P L).1 k = progress L k) ∨
      ∃ k t, Files L (c.run P L).1 k t ∧ t ∈ gossips (c.run P L).2 := by
  cases c with
  | submitTask env taskId payload shardId submitterKey =>
      refine Or.inr ⟨.str taskId, _, ⟨rfl, rfl, ?_, rfl⟩,
        (mem_gossips _ _).mpr (List.mem_singleton.mpr rfl)⟩
      exact (progress_le_open hc).trans (open_le_stage _)
  | claimTask taskId now =>
      refine Or.inl (progress_of_level P L _ ?_)
      -- An open record stays open, which is no news.
      rintro k new ⟨_, old, hold, hopen, _, hstatus, _⟩
      exact ⟨old, hold, hopen, open_of_inProgress hstatus⟩
  | renewLease taskId now =>
      refine Or.inl (progress_of_level P L _ ?_)
      rintro k new ⟨_, old, hold, hmine, hstatus, _⟩
      exact ⟨old, hold, open_of_isMine hmine,
        open_of_inProgress (hstatus.trans ((L.isMine_iff old).mp hmine).2)⟩
  | completeTask taskId result now uuid =>
      rcases L.completeTask_cases taskId result now uuid with
        ⟨hidle, _⟩ | ⟨old, _, hw, hmine, _⟩
      · exact Or.inl (progress_of_tasks hidle.tasks)
      · -- The result is new, and it is gossiped with the record.
        rcases hc old hw.found hmine with ⟨h, hdigest⟩
        rcases completeTask_files hf hw.found hmine hdigest with ⟨new, hnew⟩
        exact Or.inr ⟨_, new, hnew⟩
  | releaseLease taskId =>
      rcases L.releaseLease_cases taskId with ⟨hidle, _⟩ | ⟨t, _, hw, hmine, _⟩
      · exact Or.inl (progress_of_tasks hidle.tasks)
      · refine Or.inl (progress_of_level P L _ ?_)
        rintro k new ⟨hk, old, hold, hours, hpending, _⟩
        rw [hk] at hold
        exact ⟨old, by rw [hk, hold], hc old hold hours, open_of_pending hpending⟩
  | releaseAllLeases =>
      refine Or.inl (progress_of_level P L _ ?_)
      rintro k new ⟨old, hold, hmine, hpending, _⟩
      exact ⟨old, hold, open_of_isMine hmine, open_of_pending hpending⟩
  | recoverIdentity now =>
      refine Or.inl (progress_of_level P L _ ?_)
      rintro k new ⟨old, hold, hmine, hstatus, _⟩
      exact ⟨old, hold, open_of_isMine hmine,
        open_of_inProgress (hstatus.trans ((L.isMine_iff old).mp hmine).2)⟩

/-- A careful call absorbs what it gossips. -/
theorem run_absorbs (P : Primitives) {L : TaskLedger} {c : Call} (hf : FiledAs Regular L)
    (hc : Careful L c) :
    Absorb.Absorbs Task.tells (progress L) (progress (c.run P L).1) (gossips (c.run P L).2) := by
  have hknown := gossips_known P c hf
  rcases run_progress P hf hc with hsame | ⟨k, t, hfiles, ht⟩
  · exact Absorb.absorbs_of_known _ hsame hknown
  · exact hfiles.absorbs ht hknown

theorem run_kept (P : Primitives) {L : TaskLedger} {c : Call} (hL : Kept L) (hc : Careful L c) :
    Kept (c.run P L).1 := by
  refine hL.next (run_filed P c hL.filed) (run_file P L c) ?_
  rcases run_progress P hL.filed hc with hsame | ⟨k, t, hfiles, _⟩
  · exact Or.inr hsame
  · exact Or.inl hfiles.written

/-! ## Updates -/

/-- Against a record of integer version the merge decides: it takes an incoming
    record only over an open one, and leaves it only if it has nothing to say. -/
theorem accepts_cases {held : Option Task} {t : Task} (hheld : Ranked held)
    (hv : t.version = .int t.rank) :
    (accepts held t = .ok true ∧ ∀ old, held = some old → ¬ old.Completed) ∨
      (accepts held t = .ok false ∧ ∃ old, held = some old ∧ stage t ≤ stage old) := by
  cases held with
  | none => exact Or.inl ⟨rfl, fun old hold => nomatch hold⟩
  | some old =>
      by_cases hdone : old.status = .completed
      · right
        refine ⟨by rw [accepts, if_pos hdone], old, rfl, ?_⟩
        exact (le_top : stage t ≤ ⊤).trans ((stage_eq_true_iff old).mpr hdone).ge
      · have hgt : PyVal.gt t.version old.version = .ok (decide (old.rank < t.rank)) := by
          rw [PyVal.gt, hv, hheld old rfl, lt_int]
        have hopen : ∀ o, some old = some o → ¬ o.Completed := by
          intro o ho
          rw [← Option.some.inj ho]
          exact hdone
        simp only [accepts, if_neg hdone, hgt]
        by_cases hlt : old.rank < t.rank
        · exact Or.inl ⟨by rw [decide_eq_true hlt], hopen⟩
        · rw [decide_eq_false hlt]
          -- A record that is not newer is taken only if it is completed.
          by_cases ht : t.Completed
          · exact Or.inl ⟨by rw [decide_eq_true (show t.status = .completed from ht)], hopen⟩
          · have hopen' : ¬ t.status = .completed := ht
            refine Or.inr ⟨by rw [decide_eq_false hopen'], old, rfl, ?_⟩
            unfold stage
            rw [decide_eq_false ht]
            exact open_le_stage old

/-- The log lines of an installed regular record do not raise. -/
theorem logsOk_of_regular (L : TaskLedger) (held : Option Task) {taskId : PyStr} {t : Task}
    (ht : Regular taskId t) : L.logsOk held t = true := by
  have hholder : (!t.leasedBy.truthy || t.leasedBy.sliceable) = true := by
    rcases ht.holder with h | ⟨x, h⟩
    · rw [h]
      rfl
    · rw [h]
      exact Bool.or_true _
  have hid : t.taskId.sliceable = true := by
    rw [ht.id]
    rfl
  unfold logsOk
  simp only [hid, hholder]
  split
  · rfl
  · split
    · split
      · rfl
      · split
        · rfl
        · rfl
    · rfl

/-- The merge of a regular record shows it already, or files it. -/
theorem mergeTask_progress {L : TaskLedger} (hf : FiledAs Regular L) (msg : Msg) {taskId : PyStr}
    {t : Task} (ht : Regular taskId t) :
    ((L.mergeTask msg (.str taskId) t).ledger = L ∧ ∀ k, t.tells k ≤ progress L k) ∨
      Files L (L.mergeTask msg (.str taskId) t).ledger (.str taskId) t := by
  have hkey : hashKey t.taskId = .ok (.str taskId) := by
    rw [ht.id]
    rfl
  have hranked : Ranked (L.tasks.get? (.str taskId)) := by
    intro old hold
    rcases hf _ old hold with ⟨_, _, hreg⟩
    exact hreg.version
  unfold mergeTask
  -- The record is taken over, or the one that is there tells as much.
  rcases accepts_cases hranked ht.version with ⟨haccepts, hopen⟩ | ⟨hrejects, old, hold, hstage⟩
  · right
    have hle : progress L (.str taskId) ≤ stage t := by
      refine (progress_le_open ?_).trans (open_le_stage t)
      rintro ⟨old, hold, hdone⟩
      exact hopen old hold hdone
    simp only [haccepts, logsOk_of_regular L _ ht, if_true]
    cases relay msg with
    | ok out => exact ⟨rfl, hkey, hle, rfl⟩
    | error e => exact ⟨rfl, hkey, hle, rfl⟩
  · left
    simp only [hrejects]
    refine ⟨trivial, fun k => ?_⟩
    unfold Task.tells
    by_cases hk : hashKey t.taskId = .ok k
    · have hkk : Key.str taskId = k := Except.ok.inj (hkey.symm.trans hk)
      rw [if_pos hk, progress, ← hkk, hold]
      exact hstage
    · rw [if_neg hk]
      exact bot_le

/-- An update of a regular record that the ledger has not seen. -/
theorem update_progress {P : Primitives} {L : TaskLedger} (hf : FiledAs Regular L)
    {taskId : PyStr} (u : Update P taskId) (hreg : Regular taskId u.record)
    (hfresh : .str u.id ∉ L.seenIds.items) :
    ((L.handleLedgerUpdate P u.msg).ledger.tasks = L.tasks ∧
        ∀ k, u.record.tells k ≤ progress L k) ∨
      Files L (L.handleLedgerUpdate P u.msg).ledger (.str taskId) u.record := by
  rw [update_merges P taskId u L hfresh]
  -- The merge runs on the same records and the same file.
  rcases mergeTask_progress (L := { L with seenIds := L.seenIds.append (get u.msg (lit "msg_id")) })
    hf u.msg hreg with ⟨hsame, hknown⟩ | hfiles
  · exact Or.inl ⟨by rw [hsame], hknown⟩
  · exact Or.inr ⟨hfiles.tasks, hfiles.key, hfiles.le, hfiles.written⟩

theorem update_filed {P : Primitives} {L : TaskLedger} (hf : FiledAs Regular L)
    {taskId : PyStr} (u : Update P taskId) (hreg : Regular taskId u.record)
    (hfresh : .str u.id ∉ L.seenIds.items) :
    FiledAs Regular (L.handleLedgerUpdate P u.msg).ledger := by
  rcases update_progress hf u hreg hfresh with ⟨hsame, _⟩ | hfiles
  · intro k t ht
    exact hf k t (by rw [← hsame, ht])
  · exact filed_set hf hfiles.tasks hreg

/-- An update that is new is absorbed. -/
theorem update_absorbs {P : Primitives} {L : TaskLedger} (hf : FiledAs Regular L)
    {taskId : PyStr} (u : Update P taskId) (hreg : Regular taskId u.record)
    (hfresh : .str u.id ∉ L.seenIds.items) :
    Absorb.Absorbs Task.tells (progress L) (progress (L.handleLedgerUpdate P u.msg).ledger)
      [u.record] := by
  rcases update_progress hf u hreg hfresh with ⟨hsame, hknown⟩ | hfiles
  · refine Absorb.absorbs_of_known _ (progress_of_tasks hsame) (fun t ht k => ?_)
    rw [List.mem_singleton.mp ht, progress_of_tasks hsame]
    exact hknown k
  · refine hfiles.absorbs (List.mem_singleton.mpr rfl) (fun t ht k => ?_)
    rw [List.mem_singleton.mp ht]
    refine tells_le_progress ?_ hfiles.key k
    rw [hfiles.tasks, Dict.get?_set_self]

theorem update_kept {P : Primitives} {L : TaskLedger} (hL : Kept L) {taskId : PyStr}
    (u : Update P taskId) (hreg : Regular taskId u.record)
    (hfresh : .str u.id ∉ L.seenIds.items) : Kept (L.handleLedgerUpdate P u.msg).ledger := by
  refine hL.next (update_filed hL.filed u hreg hfresh) (update_file P L u.msg) ?_
  rcases update_progress hL.filed u hreg hfresh with ⟨hsame, _⟩ | hfiles
  · exact Or.inr (progress_of_tasks hsame)
  · exact Or.inl hfiles.written

end WhisperNet
