import Mathlib.Data.List.Nodup
import WhisperNet.Runtime.Zombies

/-!
# One Execution of a Task

The runtime keeps the ids of the tasks it has a thread for in `_executing`. An
award's thread looks a task up there and puts it in under one lock. The scan
looks it up first, claims the task, and puts it in later without looking again.
In between an award's thread may have entered, and if its lease has run out by
then the claim of the scan succeeds on the node's own lease. Then two threads
execute the task.

That is the only way. As long as the scan puts in no task that is there, the set
holds exactly the tasks of the threads that are under way, each of them once.

## Main definitions

* `Process.inFlight`: The tasks that have a thread, or are about to get one from
  the scan.
* `Process.Separate`: Each of them once, and they are those in `_executing`.
* `Process.Unmarked`: The scan puts in no task that is there.
* `Process.ExecutesOnce`: No two threads are inside `_execute_one` for one task.

## Theorems

* `executesOnce_of_separate`: Threads under way are those of different tasks.
* `Process.step_separate_iff`: One step.
* `separate_iff`: When every thread under way has a task of its own.
* `one_execution`: In such runs no task is executed twice at once.
* `Expiring.twice`: A lease that runs out between a check and a claim.
-/

namespace WhisperNet

open TaskLedger

/-- The task whose thread the scan is about to start. -/
def ScanAt.starting : ScanAt → List PyStr
  | .added taskId _ => [taskId]
  | _ => []

/-- The task the scan is about to put into the set. -/
def ScanAt.claimed? : ScanAt → Option PyStr
  | .claimed taskId _ => some taskId
  | _ => none

def ProcessEvent.adds : ProcessEvent → Bool
  | .act .add => true
  | _ => false

namespace Process

variable (H : Host) (s : Process)

/-- The tasks that have a thread, or are about to get one from the scan. -/
def inFlight : List PyStr := s.scan.starting ++ s.executions.map Execution.taskId

/-- Each of them once, and they are those in `_executing`. -/
structure Separate : Prop where
  nodup : s.inFlight.Nodup
  marked : ∀ taskId, taskId ∈ s.executing ↔ taskId ∈ s.inFlight

/-- The scan puts in no task that is there. -/
def Unmarked : ProcessEvent → Prop
  | .act .add => ∀ taskId ∈ s.scan.claimed?, taskId ∉ s.executing
  | _ => True

theorem unmarked_iff (e : ProcessEvent) : s.Unmarked e ↔
    (e.adds = true → ∀ taskId ∈ s.scan.claimed?, taskId ∉ s.executing) := by
  unfold Unmarked ProcessEvent.adds
  split
  · simp only [true_imp_iff]
  · simp only [Bool.false_eq_true, false_imp_iff]

instance (e : ProcessEvent) : Decidable (s.Unmarked e) := decidable_of_iff _ (unmarked_iff s e).symm

/-- No two threads are inside `_execute_one` for one task. -/
def ExecutesOnce : Prop :=
  ∀ (i j : Nat) (taskId : PyStr) (t u : Task), s.executions[i]? = some ⟨taskId, .running t⟩ →
    s.executions[j]? = some ⟨taskId, .running u⟩ → i = j

variable {H s} {s' : Process}

/-- Threads under way are those of different tasks. -/
theorem executesOnce_of_separate (hs : s.Separate) : s.ExecutesOnce := by
  intro i j taskId t u hi hj
  have hnodup : (s.executions.map Execution.taskId).Nodup := hs.nodup.of_append_right
  have hat : ∀ {n : Nat} {x : Execution}, s.executions[n]? = some x →
      (s.executions.map Execution.taskId)[n]? = some x.taskId := by
    intro n x hn
    rw [List.getElem?_map, hn]
    rfl
  have hlt : i < (s.executions.map Execution.taskId).length :=
    (List.getElem?_eq_some_iff.mp (hat hi)).1
  exact (List.getElem?_inj hlt hnodup).mp ((hat hi).trans (hat hj).symm)

theorem separate_blank (L : TaskLedger) (up : Bool) : Separate { ledger := L, up := up } :=
  ⟨List.nodup_nil, fun _ => Iff.rfl⟩

/-- Without a change of the threads or the set. -/
theorem Separate.of_flight (hs : s.Separate) (hexecuting : s'.executing = s.executing)
    (hflight : s'.inFlight.Perm s.inFlight) : s'.Separate := by
  refine ⟨hflight.nodup_iff.mpr hs.nodup, fun id => ?_⟩
  rw [hexecuting, hflight.mem_iff]
  exact hs.marked id

/-- The ledger, the awards and a scan that is not about to start a thread. -/
theorem Separate.moved (hs : s.Separate) (L : TaskLedger) (scan : ScanAt) (awarded : List PyStr)
    (hscan : scan.starting = s.scan.starting) :
    Separate { s with ledger := L, scan := scan, awarded := awarded } := by
  refine hs.of_flight rfl (List.Perm.of_eq ?_)
  unfold inFlight
  rw [hscan]

/-- Moving an execution on leaves it one of the same task. -/
theorem inFlight_set {i : Nat} {taskId : PyStr} {stage stage' : Stage}
    (hi : s.executions[i]? = some ⟨taskId, stage⟩) (L : TaskLedger) :
    inFlight { s with ledger := L, executions := s.executions.set i ⟨taskId, stage'⟩ } =
      s.inFlight := by
  have hsame : (s.executions.map Execution.taskId).set i taskId =
      s.executions.map Execution.taskId := by
    refine List.ext_getElem? (fun n => ?_)
    rw [List.getElem?_set]
    by_cases hin : i = n
    · rw [← hin, if_pos rfl, List.getElem?_map, hi]
      have hlt : i < (s.executions.map Execution.taskId).length := by
        rw [List.length_map]
        exact (List.getElem?_eq_some_iff.mp hi).1
      rw [if_pos hlt]
      rfl
    · rw [if_neg hin]
  unfold inFlight
  simp only [List.map_set, hsame]

/-- A thread that is new, of a task that has none. -/
theorem Separate.enter (hs : s.Separate) {taskId : PyStr} (hnew : taskId ∉ s.executing)
    (hexecuting : s'.executing = s.executing.insert taskId)
    (hflight : s'.inFlight.Perm (taskId :: s.inFlight)) : s'.Separate := by
  have hnone : taskId ∉ s.inFlight := fun hc => hnew ((hs.marked taskId).mpr hc)
  refine ⟨hflight.nodup_iff.mpr (List.nodup_cons.mpr ⟨hnone, hs.nodup⟩), fun id => ?_⟩
  rw [hexecuting, List.mem_insert_iff, hflight.mem_iff, List.mem_cons, hs.marked id]

/-- A thread that has left. -/
theorem Separate.leave (hs : s.Separate) {i : Nat} {taskId : PyStr} {stage : Stage}
    (hi : s.executions[i]? = some ⟨taskId, stage⟩) :
    Separate { s with
      executing := s.executing.filter (fun t => t ≠ taskId)
      executions := s.executions.eraseIdx i } := by
  have hids : (s.executions.map Execution.taskId).Nodup := hs.nodup.of_append_right
  rcases List.getElem?_eq_some_iff.mp hi with ⟨hlt, hget⟩
  have hlt' : i < (s.executions.map Execution.taskId).length := by
    rw [List.length_map]
    exact hlt
  have hat : (s.executions.map Execution.taskId)[i] = taskId := by rw [List.getElem_map, hget]
  -- No id is there twice, so taking one away at its place takes the id away.
  have herase : (s.executions.eraseIdx i).map Execution.taskId =
      (s.executions.map Execution.taskId).erase taskId := by
    rw [← List.eraseIdx_map, ← hids.erase_getElem i hlt', hat]
  have hmem : taskId ∈ s.executions.map Execution.taskId := hat ▸ List.getElem_mem hlt'
  have hnot : taskId ∉ s.scan.starting := fun hc =>
    List.disjoint_of_nodup_append hs.nodup hc hmem
  constructor
  · unfold inFlight
    rw [herase]
    exact hs.nodup.sublist ((List.Sublist.refl _).append (List.erase_sublist))
  · intro id
    unfold inFlight
    rw [herase, List.mem_filter, decide_eq_true_iff, hs.marked id, inFlight, List.mem_append,
      List.mem_append, hids.mem_erase_iff]
    constructor
    · rintro ⟨hid | hid, hne⟩
      · exact Or.inl hid
      · exact Or.inr ⟨hne, hid⟩
    · rintro (hid | ⟨hne, hid⟩)
      · exact ⟨Or.inl hid, fun hc => hnot (hc ▸ hid)⟩
      · exact ⟨Or.inr hid, hne⟩

theorem add_separate_iff (hs : s.Separate) (h : s.act H .add = some s') :
    s'.Separate ↔ s.Unmarked (.act .add) := by
  simp only [act] at h
  split at h
  · rename_i taskId rest hscan
    rw [← Option.some.inj h]
    have hunmarked : s.Unmarked (.act .add) ↔ taskId ∉ s.executing := by
      unfold Unmarked
      rw [hscan]
      simp only [ScanAt.claimed?, Option.mem_def, Option.some.injEq, forall_eq']
    rw [hunmarked]
    constructor
    · rintro ⟨hnodup, _⟩ hin
      -- The set held the task, so it has a thread already.
      have hflight := (hs.marked taskId).mp hin
      unfold inFlight at hflight
      rw [hscan] at hflight
      exact (List.nodup_cons.mp hnodup).1 hflight
    · intro hnew
      refine hs.enter hnew rfl ?_
      unfold inFlight
      rw [hscan]
      exact List.Perm.refl _
  · simp only [reduceCtorEq] at h

theorem spawn_separate (hs : s.Separate) (h : s.act H .spawn = some s') : s'.Separate := by
  simp only [act] at h
  split at h
  · rename_i taskId rest hscan
    rw [← Option.some.inj h]
    -- The task moves from the scan to the threads.
    refine hs.of_flight rfl ?_
    unfold inFlight
    rw [hscan, List.map_append]
    exact List.perm_append_singleton taskId _
  · simp only [reduceCtorEq] at h

theorem act_separate_iff {a : ThreadEvent} (hs : s.Separate) (h : s.act H a = some s') :
    s'.Separate ↔ s.Unmarked (.act a) := by
  cases a with
  -- The scan goes on without starting a thread.
  | scan now =>
      refine iff_of_true ?_ trivial
      simp only [act] at h
      split at h
      · rename_i hscan
        split at h
        · rw [← Option.some.inj h]
          exact hs.moved s.ledger _ s.awarded (by rw [hscan]; rfl)
        · rw [← Option.some.inj h]
          exact hs
      · simp only [reduceCtorEq] at h
  | renew now sends =>
      refine iff_of_true ?_ trivial
      simp only [act] at h
      split at h
      · rename_i taskId rest hscan
        rw [← Option.some.inj h]
        refine hs.moved _ _ s.awarded ?_
        rw [hscan]
        split
        · rfl
        · rfl
      · simp only [reduceCtorEq] at h
  | select view now =>
      refine iff_of_true ?_ trivial
      simp only [act] at h
      split at h
      · rename_i hscan
        split at h
        · rw [← Option.some.inj h]
          exact hs.moved s.ledger _ s.awarded (by rw [hscan]; rfl)
        · rw [← Option.some.inj h]
          exact hs.moved s.ledger _ s.awarded (by rw [hscan]; rfl)
      · simp only [reduceCtorEq] at h
  | check =>
      refine iff_of_true ?_ trivial
      simp only [act] at h
      split at h
      · rename_i hscan
        rw [← Option.some.inj h]
        exact hs.moved s.ledger _ s.awarded (by rw [hscan]; rfl)
      · rename_i taskId rest hscan
        rw [← Option.some.inj h]
        refine hs.moved s.ledger _ s.awarded ?_
        rw [hscan]
        split
        · rfl
        · rfl
      · simp only [reduceCtorEq] at h
  | claim now sends =>
      refine iff_of_true ?_ trivial
      simp only [act] at h
      split at h
      · rename_i taskId rest hscan
        rw [← Option.some.inj h]
        refine hs.moved _ _ s.awarded ?_
        rw [hscan]
        split
        · rfl
        · rfl
        · rfl
      · simp only [reduceCtorEq] at h
  -- The scan marks a task and starts its thread.
  | add => exact add_separate_iff hs h
  | spawn => exact iff_of_true (spawn_separate hs h) trivial
  | award msg now sends =>
      refine iff_of_true ?_ trivial
      rw [← Option.some.inj h]
      unfold handleTaskAward
      split
      · split
        · exact hs
        · exact hs.moved _ s.scan _ rfl
      · exact hs
  -- The threads of the executions.
  | enter taskId =>
      refine iff_of_true ?_ trivial
      simp only [act] at h
      split at h
      · rw [← Option.some.inj h]
        unfold enter
        dsimp only
        split
        · exact hs.moved s.ledger s.scan _ rfl
        · rename_i hnew
          refine hs.enter hnew rfl ?_
          unfold inFlight
          rw [List.map_append, ← List.append_assoc]
          exact List.perm_append_singleton taskId _
      · simp only [reduceCtorEq] at h
  | settle i =>
      refine iff_of_true ?_ trivial
      simp only [act] at h
      split at h
      · rename_i taskId hexec
        rw [← Option.some.inj h]
        exact hs.of_flight rfl (List.Perm.of_eq (inFlight_set hexec s.ledger))
      · simp only [reduceCtorEq] at h
  | finish i job =>
      refine iff_of_true ?_ trivial
      simp only [act] at h
      split at h
      · rename_i taskId task hexec
        rw [← Option.some.inj h]
        exact hs.of_flight rfl (List.Perm.of_eq (inFlight_set hexec _))
      · simp only [reduceCtorEq] at h
  | leave i =>
      refine iff_of_true ?_ trivial
      simp only [act] at h
      split at h
      · rename_i taskId hexec
        rw [← Option.some.inj h]
        exact hs.leave hexec
      · simp only [reduceCtorEq] at h
  -- The other threads only call the ledger.
  | update msg =>
      rw [← Option.some.inj h]
      exact iff_of_true (hs.moved _ s.scan s.awarded rfl) trivial
  | submit env taskId payload shardId submitterKey =>
      rw [← Option.some.inj h]
      exact iff_of_true (hs.moved _ s.scan s.awarded rfl) trivial
  | releaseAll =>
      rw [← Option.some.inj h]
      exact iff_of_true (hs.moved _ s.scan s.awarded rfl) trivial
  | converge consensus =>
      rw [← Option.some.inj h]
      exact iff_of_true (hs.moved _ s.scan s.awarded rfl) trivial

/-- The set is what threads are under way for, once each, and stays so unless
    the scan puts in a task that is there. -/
theorem step_separate_iff {e : ProcessEvent} (hs : s.Separate) (h : s.step H e = some s') :
    s'.Separate ↔ s.Unmarked e := by
  cases e with
  | boot leaseDuration renewThreshold now =>
      simp only [step] at h
      split at h
      · simp only [reduceCtorEq] at h
      · rw [← Option.some.inj h]
        unfold boot
        refine iff_of_true ?_ trivial
        dsimp only
        split
        · exact separate_blank _ _
        · exact separate_blank _ _
  | crash =>
      simp only [step] at h
      split at h
      · rw [← Option.some.inj h]
        exact iff_of_true (separate_blank _ _) trivial
      · simp only [reduceCtorEq] at h
  | act a =>
      simp only [step] at h
      split at h
      · exact act_separate_iff hs h
      · simp only [reduceCtorEq] at h

end Process

/-- In a run of a node from its first start, every thread under way has a task
    of its own if and only if the scan puts in no task that is there. -/
theorem separate_iff (H : Host) (L : TaskLedger) (es : List ProcessEvent) :
    Machine.Throughout (Process.step H) Process.Separate { ledger := L } es ↔
      Machine.Along (Process.step H) Process.Unmarked { ledger := L } es :=
  Machine.throughout_iff_along (Process.step H) Process.Separate Process.Unmarked
    (fun _ _ _ hs h => Process.step_separate_iff hs h) _ es (Process.separate_blank L false)

/-- And in such a run no two threads are inside `_execute_one` for one task. -/
theorem one_execution (H : Host) (L : TaskLedger) (es : List ProcessEvent)
    (hes : Machine.Along (Process.step H) Process.Unmarked { ledger := L } es) :
    Machine.Throughout (Process.step H) Process.ExecutesOnce { ledger := L } es :=
  ((separate_iff H L es).mpr hes).mono (fun _ hs => Process.executesOnce_of_separate hs)

namespace Expiring

open Restarted (host ledger boot)

/-- The node has a task of its own shard, and a scan selects it. -/
def selected : List ProcessEvent :=
  [.act (.submit SubmitEnv.plain (lit "t") (lit "p") 1 .none), .act (.scan 1),
   .act (.select none 1)]

/-- The scan claims the task and starts a thread for it. -/
def dispatched (now : ℚ) : List ProcessEvent :=
  [.act (.claim now true), .act .add, .act .spawn]

def award : Msg := [(lit "task_id", .str (lit "t")), (lit "winner", .str (lit "a"))]

/-- The node wins the task at auction after the thread of the scan has started and the
    lease has run out. The thread of the award finds the task in `_executing`. -/
def joined : List ProcessEvent :=
  .act .check :: dispatched 1 ++
    [.act (.award award 40 true), .act (.enter (lit "t")), .act (.settle 0)]

/-- The scan and the award have both claimed the task, and one thread executes it. -/
theorem executed_once :
    Machine.Throughout (Process.step host) Process.ExecutesOnce { ledger := ledger }
      (boot ++ selected ++ joined) ∧
    (Machine.run (Process.step host) { ledger := ledger } (boot ++ selected ++ joined)).map
      (fun s => (s.awarded, s.executions.map Execution.taskId,
        (s.ledger.find? (lit "t")).map Task.leaseExpires)) =
      some ([], [lit "t"], some (.float 70)) :=
  ⟨one_execution host ledger _ (by decide +kernel), by decide +kernel⟩

/-- The node wins the task at auction before the scan comes to it. Its thread
    enters after the scan has looked, and the lease has run out by then. -/
def awarded : List ProcessEvent :=
  [.act (.award award 1 true), .act .check, .act (.claim 40 true), .act (.enter (lit "t")),
   .act .add, .act .spawn, .act (.settle 0), .act (.settle 1)]

/-- Two threads are executing one task. -/
def doubled (s : Process) : Bool :=
  match s.executions with
  | [⟨taskId, .running _⟩, ⟨taskId', .running _⟩] => taskId = taskId'
  | _ => false

theorem not_executesOnce_of_doubled {s : Process} (h : doubled s = true) : ¬ s.ExecutesOnce := by
  unfold doubled at h
  split at h
  · rename_i taskId t taskId' u hexec
    rw [← of_decide_eq_true h] at hexec
    intro hone
    have hsame := hone 0 1 taskId t u (by rw [hexec]; rfl) (by rw [hexec]; rfl)
    exact absurd hsame (by decide)
  · exact absurd h Bool.false_ne_true

theorem twice : ¬ Machine.Throughout (Process.step host) Process.ExecutesOnce
    { ledger := ledger } (boot ++ selected ++ awarded) := by
  intro hall
  have hend : (Machine.run (Process.step host) { ledger := ledger }
      (boot ++ selected ++ awarded)).any doubled = true := by decide +kernel
  rcases (Option.any_eq_true ..).mp hend with ⟨s, hs, hdoubled⟩
  exact not_executesOnce_of_doubled hdoubled (hall.last hs)

end Expiring

end WhisperNet
