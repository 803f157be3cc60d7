import Mathlib.Algebra.Order.Group.Abs
import Mathlib.Data.Rat.Floor
import WhisperNet.Ledger.Restart
import WhisperNet.Lib.Machine
import WhisperNet.Python.Double
import WhisperNet.Runtime.Execute
import WhisperNet.Runtime.Scan

/-!
# The Threads of a Node

One node as a process: the scan loop, the award handlers, the execution
threads, the gossip it receives, and its crashes and restarts. What survives a
crash is the ledger file. The set `_executing`, the scan under way and the
execution threads do not, and a restart starts none.

Each event is one section of a thread between two points where another may
run: a call on the ledger holds its lock, and so does each use of `_executing`.
A list of tasks that a thread has read is kept with the thread, as the ledger
goes on changing behind it.

Task ids are strings, as `Task` declares them. An update can bring a record with
another id, but no section is a call under such an id: a scan that comes to the
record is not followed further. The other threads go on.

## Main definitions

* `Stage`, `Execution`: An execution thread.
* `ScanAt`: Where the scan loop is.
* `Process`: A node, up or down.
* `Host`: What a node is configured with.
* `ThreadEvent`, `ProcessEvent`: What can happen.
* `Host.callOf`: The ledger call an execution ends in, unless it raises.
* `Process.act`, `Process.step`: The process after an event.

## Theorems

* `step_up`: A running process only crashes or acts.
-/

namespace WhisperNet

open TaskLedger
open PyVal (get)

/-- What an execution thread is doing. -/
inductive Stage
  /-- waiting for gossip to settle, the lease not yet checked -/
  | settling
  /-- executing the record it found under its lease -/
  | running (task : Task)
  /-- returned or raised, before the `finally` -/
  | leaving

/-- A thread in `_run_exec_thread` or `execute_awarded_task`. -/
structure Execution where
  taskId : PyStr
  stage : Stage

/-- Where the scan loop is. -/
inductive ScanAt
  /-- between two scans -/
  | waiting
  /-- in the loop over the tasks needing renewal -/
  | renewing (ids : List PyVal)
  /-- at the head of the loop over the selected tasks -/
  | dispatching (ids : List PyVal)
  /-- the task was not in `_executing` -/
  | checked (taskId : PyStr) (rest : List PyVal)
  /-- the task was claimed -/
  | claimed (taskId : PyStr) (rest : List PyVal)
  /-- the task was put into `_executing` -/
  | added (taskId : PyStr) (rest : List PyVal)

/-- A node. `awarded` are the tasks an award handler has claimed whose thread
    has not reached `execute_awarded_task` yet. -/
structure Process where
  ledger : TaskLedger
  up : Bool := false
  executing : List PyStr := []
  scan : ScanAt := .waiting
  awarded : List PyStr := []
  executions : List Execution := []

/-- What a node is configured with. -/
structure Host where
  prims : Primitives
  texts : Texts
  runtime : AgentRuntime
  worker : Worker

/-- What an execution gets from outside: the collected shares, what the
    inference made of the payload, and the time and id of its completion. -/
structure Job where
  collected : Except PyErr (List (PyVal × Bytes))
  inferred : Except PyErr PyStr
  now : ℚ
  uuid : PyStr

/-- A section of a thread of a running node. `sends` is false where handing a
    record to the transport raises. -/
inductive ThreadEvent
  /-- `get_tasks_needing_renewal` -/
  | scan (now : ℚ)
  /-- `renew_lease` of the next task -/
  | renew (now : ℚ) (sends : Bool)
  /-- `get_claimable_tasks` and the selection -/
  | select (view : Option MembershipLayer) (now : ℚ)
  /-- `if task.task_id in self._executing`, or the end of the loop -/
  | check
  /-- `claim_task` -/
  | claim (now : ℚ) (sends : Bool)
  /-- `self._executing.add` -/
  | add
  /-- the start of the thread -/
  | spawn
  /-- `_handle_task_award` -/
  | award (msg : Msg) (now : ℚ) (sends : Bool)
  /-- the first section of `execute_awarded_task` -/
  | enter (taskId : PyStr)
  /-- `get_my_active_tasks` of an execution -/
  | settle (i : Nat)
  /-- `_execute_one` -/
  | finish (i : Nat) (job : Job)
  /-- the `finally` -/
  | leave (i : Nat)
  /-- `handle_ledger_update` -/
  | update (msg : Msg)
  /-- `submit_task`, from a client or a peer -/
  | submit (env : SubmitEnv) (taskId payload : PyStr) (shardId : Int) (submitterKey : PyVal)
  /-- `release_all_leases`, at shutdown -/
  | releaseAll
  /-- a round of `_lease_convergence_loop` -/
  | converge (consensus : ℚ)

inductive ProcessEvent
  /-- the constructor and `start`, with the lease settings it is given -/
  | boot (leaseDuration renewThreshold now : ℚ)
  | crash
  | act (a : ThreadEvent)

/-- The ledger call `_execute_one` ends in, unless it raises. -/
def Host.callOf (H : Host) (taskId : PyStr) (task : Task) (job : Job) : Option Call :=
  match executeOne H.prims H.texts H.worker task job.collected with
  | .error _ => none
  | .ok .release => some (.releaseLease taskId)
  | .ok (.complete result) => some (.completeTask taskId result job.now job.uuid)
  | .ok (.execute _) =>
    match job.inferred with
    | .error _ => none
    | .ok result => some (.completeTask taskId result job.now job.uuid)

/-- `abs(consensus - current) / max(current, 0.1) > 0.10`, in floats. -/
def farFrom (current consensus : ℚ) : Bool :=
  double (double |consensus - current| / max current (double (1 / 10))) > double (1 / 10)

/-- `consensus * 0.4`, in floats. -/
def thresholdOf (consensus : ℚ) : ℚ := double (consensus * double (2 / 5))

/-- A round of `_lease_convergence_loop`. -/
def TaskLedger.converge (L : TaskLedger) (consensus : ℚ) : TaskLedger :=
  if farFrom L.leaseDuration consensus then
    { L with leaseDuration := consensus, renewThreshold := thresholdOf consensus }
  else L

namespace Process

variable (H : Host) (s : Process)

/-- `_handle_task_award`. An id that is not a string raises before the claim,
    or in it before anything is written. -/
def handleTaskAward (msg : Msg) (now : ℚ) (sends : Bool) : Process :=
  match get msg (lit "task_id") with
  | .str taskId =>
    if taskId = [] ∨ get msg (lit "winner") ≠ .str s.ledger.ourKey then s
    else
      let o := s.ledger.claimTask taskId now
      { s with
        ledger := o.ledger
        awarded := match o.sent sends with
          | .ok true => taskId :: s.awarded
          | _ => s.awarded }
  | _ => s

/-- The first section of `execute_awarded_task`. -/
def enter (taskId : PyStr) : Process :=
  let s := { s with awarded := s.awarded.erase taskId }
  if taskId ∈ s.executing then s
  else { s with
    executing := s.executing.insert taskId
    executions := s.executions ++ [⟨taskId, .settling⟩] }

/-- The records an execution of a task finds under this node's lease. -/
def active (taskId : PyStr) : List Task :=
  s.ledger.getMyActiveTasks.filter (fun t => t.taskId = .str taskId)

theorem mem_active {taskId : PyStr} {t : Task} : t ∈ s.active taskId ↔
    (∃ k, s.ledger.tasks.get? k = some t) ∧ s.ledger.isMine t = true ∧ t.taskId = .str taskId := by
  unfold active TaskLedger.getMyActiveTasks
  rw [List.mem_filter, List.mem_filter, Dict.mem_values, decide_eq_true_iff, and_assoc]

/-- A section of a thread of a running node. A scan has none at an id that is no text. -/
def act : ThreadEvent → Option Process
  | .scan now =>
    match s.scan with
    | .waiting => match s.ledger.getTasksNeedingRenewal now with
      | .ok due => some { s with scan := .renewing (due.map Task.taskId) }
      | .error _ => some s
    | _ => none
  | .renew now sends =>
    match s.scan with
    | .renewing (.str taskId :: rest) =>
      let o := s.ledger.renewLease taskId now
      some { s with
        ledger := o.ledger
        scan := match o.sent sends with
          | .ok _ => .renewing rest
          | .error _ => .waiting }
    | _ => none
  | .select view now =>
    match s.scan with
    | .renewing [] => match H.runtime.selectFrom view s.ledger now with
      | .ok tasks => some { s with scan := .dispatching (tasks.map Task.taskId) }
      | .error _ => some { s with scan := .waiting }
    | _ => none
  | .check =>
    match s.scan with
    | .dispatching [] => some { s with scan := .waiting }
    | .dispatching (.str taskId :: rest) =>
      some { s with
        scan := if taskId ∈ s.executing then .dispatching rest else .checked taskId rest }
    | _ => none
  | .claim now sends =>
    match s.scan with
    | .checked taskId rest =>
      let o := s.ledger.claimTask taskId now
      some { s with
        ledger := o.ledger
        scan := match o.sent sends with
          | .ok true => .claimed taskId rest
          | .ok false => .dispatching rest
          | .error _ => .waiting }
    | _ => none
  | .add =>
    match s.scan with
    | .claimed taskId rest =>
      some { s with executing := s.executing.insert taskId, scan := .added taskId rest }
    | _ => none
  | .spawn =>
    match s.scan with
    | .added taskId rest =>
      some { s with
        scan := .dispatching rest
        executions := s.executions ++ [⟨taskId, .settling⟩] }
    | _ => none
  | .award msg now sends => some (s.handleTaskAward msg now sends)
  | .enter taskId => if taskId ∈ s.awarded then some (s.enter taskId) else none
  | .settle i =>
    match s.executions[i]? with
    | some ⟨taskId, .settling⟩ =>
      let stage := match s.active taskId with
        | [] => .leaving
        | t :: _ => .running t
      some { s with executions := s.executions.set i ⟨taskId, stage⟩ }
    | _ => none
  | .finish i job =>
    match s.executions[i]? with
    | some ⟨taskId, .running task⟩ =>
      some { s with
        ledger := match H.callOf taskId task job with
          | some c => (c.run H.prims s.ledger).1
          | none => s.ledger
        executions := s.executions.set i ⟨taskId, .leaving⟩ }
    | _ => none
  | .leave i =>
    match s.executions[i]? with
    | some ⟨taskId, .leaving⟩ =>
      some { s with
        executing := s.executing.filter (fun t => t ≠ taskId)
        executions := s.executions.eraseIdx i }
    | _ => none
  | .update msg => some { s with ledger := (s.ledger.handleLedgerUpdate H.prims msg).ledger }
  | .submit env taskId payload shardId submitterKey =>
    some { s with
      ledger := (s.ledger.submitTask H.prims env taskId payload shardId submitterKey).ledger }
  | .releaseAll => some { s with ledger := s.ledger.releaseAllLeases.ledger }
  | .converge consensus => some { s with ledger := s.ledger.converge consensus }

/-- The process that comes up from its file, or stays down if the recovery
    raises. -/
def boot (leaseDuration renewThreshold now : ℚ) : Process :=
  let L := { s.ledger.load with leaseDuration := leaseDuration, renewThreshold := renewThreshold }
  let o := L.recoverIdentity now
  match o.ret with
  | .ok _ => { ledger := o.ledger, up := true }
  | .error _ => { ledger := o.ledger }

def step : ProcessEvent → Option Process
  | .boot leaseDuration renewThreshold now =>
    if s.up then none else some (s.boot leaseDuration renewThreshold now)
  | .crash => if s.up then some { ledger := s.ledger } else none
  | .act a => if s.up then s.act H a else none

end Process

end WhisperNet
