import WhisperNet.Crypto.Ciphers
import WhisperNet.Crypto.Signer
import WhisperNet.Ledger.Task
import WhisperNet.Lib.Window
import WhisperNet.Python.Double

/-!
# The Task Ledger

The state of `TaskLedger` and its operations. An operation is a function of
the ledger, its arguments and what it reads from the environment (the clock, a
fresh uuid, the values its injected functions return, the randomness its
ciphers draw). It gives back an `Outcome`: what it returns or raises, the
ledger afterwards, and what it hands to the transport.

An operation that raises has already changed the fields it assigned before the
exception, and the outcome keeps that. Nothing is rolled back, and nothing
after the exception is persisted or sent.

Log lines and the events list are left out. A log line is modelled only where
formatting it can raise, which is a slice of a field that need not be a
string.

## Main definitions

* `TaskLedger`: The state of a ledger, with the file it persists to.
* `Outcome`: The result of an operation.
* `submitTask`, `claimTask`, `renewLease`, `completeTask`, `releaseLease`,
  `releaseAllLeases`, `recoverIdentity`: The local operations.
* `getClaimableTasks`, `getTasksNeedingRenewal`, `getMyActiveTasks`: What the
  scan loop reads.
* `getMetrics`: What the status page reads.
* `handleLedgerUpdate`: The merge of a gossip message.
* `gossipTask`: The message that carries a record.
* `load`: The ledger rebuilt from its file.
-/

namespace WhisperNet

open PyVal (get getD)

def gossipHops : Int := 8

def seenCacheSize : Nat := 1000

/-- A ledger. `disk` is the decoded content of the ledger file, if it exists. -/
structure TaskLedger where
  ourKey : PyStr
  leaseDuration : ℚ := 30
  renewThreshold : ℚ := 15
  signer : Signer := ⟨none⟩
  cipher : PayloadCipher := ⟨none⟩
  threshold : PayloadCipher := ⟨none⟩
  tasks : Dict Key Task := Dict.empty
  seenIds : Window seenCacheSize PyVal := Window.empty
  tasksRescued : Nat := 0
  disk : Option Msg := none
  deriving DecidableEq

/-- What an operation hands to the transport. -/
inductive Output
  /-- `_gossip_task(task)` -/
  | gossip (task : Task)
  /-- `_fanout_raw(msg)` of a received message -/
  | relay (msg : Msg)
  /-- `transport.send(key, notification)` of a result -/
  | taskResult (dest : PyVal) (notification : Msg)
  /-- `_local_result_fn(notification)` -/
  | localResult (notification : Msg)
  deriving DecidableEq

structure Outcome (α : Type) where
  ret : Except PyErr α
  ledger : TaskLedger
  out : List Output := []

/-- What a ledger call returns where the transport may raise: nothing is rolled
    back, but the caller gets the exception. -/
def Outcome.sent (o : Outcome Bool) (sends : Bool) : Except PyErr Bool :=
  if sends ∨ o.out = [] then o.ret else .error .typeError

namespace TaskLedger

variable (L : TaskLedger)

def find? (taskId : PyStr) : Option Task := L.tasks.get? (.str taskId)

/-- Whether `leased_by == our_key` and `status == "in_progress"`. -/
def isMine (t : Task) : Bool := t.leasedBy = .str L.ourKey ∧ t.status = .inProgress

def put (taskId : PyStr) (t : Task) : TaskLedger :=
  { L with tasks := L.tasks.set (.str taskId) t }

/-- The object key JSON writes for a dictionary key; a number that is not an
    integer is written as its exact quotient. -/
def jsonKey : Key → PyStr
  | .none => lit "null"
  | .num q => if q.den = 1 then decimal q.num else decimal q.num ++ lit "/" ++ decimal q.den
  | .str s => s

/-- `_persist`: the file holds every record. -/
def persist : TaskLedger :=
  { L with disk := some (L.tasks.entries.map (fun e => (jsonKey e.1, .dict e.2.toDict))) }

/-- The records of the file in order, up to the first malformed one. -/
def loadTasks : Msg → Dict Key Task → Dict Key Task
  | [], acc => acc
  | (k, .dict d) :: rest, acc => match Task.fromDict d with
    | .ok t => loadTasks rest (acc.set (.str k) t)
    | .error _ => acc
  | _ :: _, acc => acc

/-- A restart: the constructor with `_load`. Only the file survives. -/
def load : TaskLedger :=
  { L with
    tasks := loadTasks (L.disk.getD []) Dict.empty
    seenIds := Window.empty
    tasksRescued := 0 }

/-- `_gossip_task`: the signed update that carries a record. -/
def gossipTask (P : Primitives) (uuid : PyStr) (task : Task) : Except PyErr Msg :=
  L.signer.sign P
    [(lit "type", .str (lit "ledger_update")),
     (lit "msg_id", .str uuid),
     (lit "from", .str L.ourKey),
     (lit "hops", .int gossipHops),
     (lit "task", .dict task.toDict)]

/-! ## Recovery and graceful shutdown -/

/-- Assign some fields, then `version += 1`; the flag says that it raised. -/
def bump (assign : Task → Task) (t : Task) : Task × Bool :=
  match t.version.incr with
  | .ok v => ({ assign t with version := v }, false)
  | .error _ => (assign t, true)

/-- The loop body shared by recovery and shutdown. -/
def bumpMine (assign : Task → Task) (t : Task) : Task × Bool :=
  if L.isMine t then bump assign t else (t, false)

/-- The records the loop collects; it raises if a version is not a number. -/
def bumped (assign : Task → Task) : List Task → Except PyErr (List Task)
  | [] => .ok []
  | t :: ts =>
    if L.isMine t then
      match t.version.incr, bumped assign ts with
      | .ok v, .ok rest => .ok ({ assign t with version := v } :: rest)
      | .error e, _ => .error e
      | _, .error e => .error e
    else bumped assign ts

/-- Gossip each record and log it; slicing an id that is not a string raises. -/
def gossipEach : List Task → List Output × Except PyErr Unit
  | [] => ([], .ok ())
  | t :: ts =>
    if t.taskId.sliceable then
      let (out, err) := gossipEach ts
      (.gossip t :: out, err)
    else ([.gossip t], .error .typeError)

/-- The two operations that walk over the records this node holds. -/
def bumpAll (assign : Task → Task) : Outcome Nat :=
  let L' := { L with tasks := L.tasks.mapUntil (L.bumpMine assign) }
  match L.bumped assign L.tasks.values with
  | .error e => { ret := .error e, ledger := L' }
  | .ok touched =>
    let (out, err) := gossipEach touched
    { ret := err.map (fun _ => touched.length)
      ledger := if touched.isEmpty then L' else L'.persist
      out := out }

/-- `recover_identity`. -/
def recoverIdentity (now : ℚ) : Outcome Nat :=
  L.bumpAll (fun t => { t with leaseExpires := .float (now + L.leaseDuration) })

/-- `release_all_leases`. -/
def releaseAllLeases : Outcome Nat :=
  L.bumpAll (fun t => { t with status := .pending, leasedBy := .none, leaseExpires := .float 0 })

/-! ## Submission -/

/-- What a submission reads from the injected functions, and the randomness
    its ciphers draw. A function that raises ends the call before it changes
    anything. -/
structure SubmitEnv where
  now : ℚ
  thresholdParams : Option (Nat × List PyVal)
  encPubkey : PyVal
  thresholdRand : ThresholdCipher.Rand
  payloadRand : PayloadCipher.Rand

/-- The threshold attempt: the payload and `threshold_t` after it. -/
def sealThreshold (P : Primitives) (env : SubmitEnv) (payload : PyStr) : PyStr × Nat :=
  if L.threshold.enabled then
    match env.thresholdParams with
    | none => (payload, 0)
    | some (t, pubkeys) =>
      match ThresholdCipher.encrypt P env.thresholdRand pubkeys payload t with
      | .ok sealed => (sealed, t)
      | .error _ => (payload, 0)
  else (payload, 0)

/-- The per-shard attempt: the payload and `encrypted` after it. -/
def sealShard (P : Primitives) (env : SubmitEnv) (payload : PyStr) (thresholdT : Nat) :
    PyStr × Bool :=
  if thresholdT = 0 ∧ L.cipher.enabled then
    if env.encPubkey.truthy then
      match PayloadCipher.encrypt P env.payloadRand env.encPubkey payload with
      | .ok sealed => (sealed, true)
      | .error _ => (payload, false)
    else (payload, false)
  else (payload, false)

/-- The record `submit_task` creates. -/
def submittedTask (P : Primitives) (env : SubmitEnv) (taskId payload : PyStr) (shardId : Int)
    (submitterKey : PyVal) : Task :=
  let (payload, thresholdT) := L.sealThreshold P env payload
  let (payload, encrypted) := L.sealShard P env payload thresholdT
  { taskId := .str taskId
    payload := .str payload
    shardId := .int shardId
    status := .pending
    leasedBy := .none
    leaseExpires := .float 0
    result := .none
    createdAt := .float env.now
    version := .int 1
    submitterKey := submitterKey
    encrypted := .bool encrypted
    thresholdT := .int thresholdT }

/-- `submit_task`. -/
def submitTask (P : Primitives) (env : SubmitEnv) (taskId payload : PyStr) (shardId : Int)
    (submitterKey : PyVal) : Outcome Task :=
  let task := L.submittedTask P env taskId payload shardId submitterKey
  { ret := .ok task, ledger := (L.put taskId task).persist, out := [.gossip task] }

/-! ## Leases -/

/-- `release_lease`. -/
def releaseLease (taskId : PyStr) : Outcome Bool :=
  match L.find? taskId with
  | none => { ret := .ok false, ledger := L }
  | some task =>
    if task.leasedBy ≠ .str L.ourKey then { ret := .ok false, ledger := L }
    else
      let task := { task with status := .pending, leasedBy := .none, leaseExpires := .float 0 }
      match task.version.incr with
      | .error e => { ret := .error e, ledger := L.put taskId task }
      | .ok v =>
        let task := { task with version := v }
        { ret := .ok true, ledger := (L.put taskId task).persist, out := [.gossip task] }

/-- `was_orphaned`: in progress with a lease that has run out. -/
def wasOrphaned (task : Task) (now : ℚ) : Except PyErr Bool :=
  if task.status = .inProgress then PyVal.lt task.leaseExpires (.float now) else .ok false

/-- The text a claim commits to. -/
def commitmentText (key taskId : PyStr) (now : ℚ) : PyStr :=
  key ++ lit ":" ++ taskId ++ lit ":" ++ fixed6 now

/-- The first 16 digits of the digest of a text. -/
def digest16 (s : PyStr) : Except PyErr PyVal :=
  (encode s).map (fun b => .str ((sha256hex b).take 16))

/-- `claim_task` once the lease is known to be free. -/
def claimFree (taskId : PyStr) (task : Task) (now : ℚ) : Outcome Bool :=
  let task := { task with
    status := .inProgress
    leasedBy := .str L.ourKey
    leaseExpires := .float (now + L.leaseDuration)
    claimedAt := .float now }
  match digest16 (commitmentText L.ourKey taskId now) with
  | .error e => { ret := .error e, ledger := L.put taskId task }
  | .ok commitment =>
    let task := { task with commitment := commitment }
    match task.version.incr with
    | .error e => { ret := .error e, ledger := L.put taskId task }
    | .ok v =>
      let task := { task with version := v }
      { ret := .ok true, ledger := (L.put taskId task).persist, out := [.gossip task] }

/-- `claim_task`. -/
def claimTask (taskId : PyStr) (now : ℚ) : Outcome Bool :=
  match L.find? taskId with
  | none => { ret := .ok false, ledger := L }
  | some task =>
    if task.status = .completed then { ret := .ok false, ledger := L }
    else match wasOrphaned task now with
      | .error e => { ret := .error e, ledger := L }
      | .ok orphaned =>
        if task.status = .inProgress ∧ orphaned = false then
          { ret := .ok false, ledger := L }
        else
          let L' := if orphaned then { L with tasksRescued := L.tasksRescued + 1 } else L
          L'.claimFree taskId task now

/-- `renew_lease`. -/
def renewLease (taskId : PyStr) (now : ℚ) : Outcome Bool :=
  match L.find? taskId with
  | none => { ret := .ok false, ledger := L }
  | some task =>
    if L.isMine task = false then { ret := .ok false, ledger := L }
    else
      let task := { task with leaseExpires := .float (now + L.leaseDuration) }
      match task.version.incr with
      | .error e => { ret := .error e, ledger := L.put taskId task }
      | .ok v =>
        let task := { task with version := v }
        { ret := .ok true, ledger := (L.put taskId task).persist, out := [.gossip task] }

/-! ## Completion -/

/-- `_notify_submitter`. -/
def notifySubmitter (uuid : PyStr) (task : Task) : List Output :=
  let notification : Msg :=
    [(lit "type", .str (lit "task_result")),
     (lit "msg_id", .str uuid),
     (lit "from", .str L.ourKey),
     (lit "task_id", task.taskId),
     (lit "shard_id", task.shardId),
     (lit "result", task.result),
     (lit "completed_at", task.completedAt)]
  if task.submitterKey.truthy = false then []
  else if task.submitterKey = .str L.ourKey then [.localResult notification]
  else [.taskResult task.submitterKey notification]

/-- `complete_task`. -/
def completeTask (taskId result : PyStr) (now : ℚ) (uuid : PyStr) : Outcome Bool :=
  match L.find? taskId with
  | none => { ret := .ok false, ledger := L }
  | some task =>
    if task.leasedBy ≠ .str L.ourKey then { ret := .ok false, ledger := L }
    else
      let task := { task with
        status := .completed
        result := .str result
        completedAt := .float now }
      match digest16 result with
      | .error e => { ret := .error e, ledger := L.put taskId task }
      | .ok resultHash =>
        let task := { task with resultHash := resultHash }
        match task.version.incr with
        | .error e => { ret := .error e, ledger := L.put taskId task }
        | .ok v =>
          let task := { task with version := v }
          { ret := .ok true
            ledger := (L.put taskId task).persist
            out := .gossip task :: L.notifySubmitter uuid task }

/-! ## Queries -/

/-- `get_claimable_tasks`: pending, or expired and not ours. -/
def claimable (now : ℚ) : List Task → Except PyErr (List Task)
  | [] => .ok []
  | t :: ts =>
    match t.status with
    | .pending => (claimable now ts).map (fun out => t :: out)
    | .inProgress =>
      match PyVal.lt t.leaseExpires (.float now) with
      | .error e => .error e
      | .ok expired =>
        if expired ∧ t.leasedBy ≠ .str L.ourKey then
          (claimable now ts).map (fun out => t :: out)
        else claimable now ts
    | _ => claimable now ts

def getClaimableTasks (now : ℚ) : Except PyErr (List Task) := L.claimable now L.tasks.values

/-- `get_my_active_tasks`. -/
def getMyActiveTasks : List Task := L.tasks.values.filter (fun t => L.isMine t)

/-- `t.lease_expires - now < renew_threshold`. -/
def dueForRenewal (now : ℚ) (t : Task) : Except PyErr Bool :=
  (PyVal.sub t.leaseExpires (.float now)).map (fun left => decide (left < L.renewThreshold))

/-- `get_tasks_needing_renewal`. -/
def needingRenewal (now : ℚ) : List Task → Except PyErr (List Task)
  | [] => .ok []
  | t :: ts =>
    if L.isMine t then
      match L.dueForRenewal now t with
      | .error e => .error e
      | .ok due =>
        if due then (needingRenewal now ts).map (fun out => t :: out) else needingRenewal now ts
    else needingRenewal now ts

def getTasksNeedingRenewal (now : ℚ) : Except PyErr (List Task) :=
  L.needingRenewal now L.tasks.values

structure Metrics where
  total : Nat
  completed : Nat
  inProgress : Nat
  pending : Nat
  tasksRescued : Nat
  avgCompletion : Option PyFloat
  fastestCompletion : Option PyNum
  slowestCompletion : Option PyNum
  deriving DecidableEq

/-- `t.completed_at - t.created_at` of each completed record that has the former. -/
def completionTimes : List Task → Except PyErr (List PyNum)
  | [] => .ok []
  | t :: ts =>
    if t.status = .completed ∧ t.completedAt.truthy then
      match PyVal.minus t.completedAt t.createdAt with
      | .error e => .error e
      | .ok d => (completionTimes ts).map (fun times => d :: times)
    else completionTimes ts

/-- `get_metrics`. The sum raises where a float meets an integer that is too large for
    one, and the division where the mean is. -/
def getMetrics : Except PyErr Metrics := do
  let tasks := L.tasks.values
  let times ← completionTimes tasks
  let metrics : Metrics := {
    total := tasks.length
    completed := times.length
    inProgress := tasks.countP (fun t => t.status = .inProgress)
    pending := tasks.countP (fun t => t.status = .pending)
    tasksRescued := L.tasksRescued
    avgCompletion := none
    fastestCompletion := none
    slowestCompletion := none }
  match times with
  | [] => .ok metrics
  | first :: rest =>
    let total ← PyNum.sum times
    let avg ← total.mean times.length
    .ok { metrics with
      avgCompletion := some avg.round2
      fastestCompletion :=
        some (rest.foldl (fun x y => if y.lt x then y else x) first).round2
      slowestCompletion :=
        some (rest.foldl (fun x y => if x.lt y then y else x) first).round2 }

/-! ## Gossip -/

/-- Whether the merge installs `incoming`: the record is new, or has a higher
    version, or is the first completed one. -/
def accepts (existing : Option Task) (incoming : Task) : Except PyErr Bool :=
  match existing with
  | none => .ok true
  | some existing =>
    if existing.status = .completed then .ok false
    else match PyVal.gt incoming.version existing.version with
      | .error e => .error e
      | .ok true => .ok true
      | .ok false => .ok (decide (incoming.status = .completed))

/-- Whether logging an installed record raises. A new record logs its id; a
    record of higher version logs its id and holder when it completes the task
    or claims it for another node. -/
def logsOk (existing : Option Task) (incoming : Task) : Bool :=
  let holderOk := !incoming.leasedBy.truthy || incoming.leasedBy.sliceable
  match existing with
  | none => incoming.taskId.sliceable
  | some existing =>
    match PyVal.gt incoming.version existing.version with
    | .ok true =>
      if incoming.status = .completed then incoming.taskId.sliceable && holderOk
      else if incoming.status = .inProgress
          ∧ (existing.status = .pending ∨ existing.status = .inProgress)
          ∧ incoming.leasedBy ≠ .str L.ourKey then incoming.taskId.sliceable && holderOk
      else true
    | _ => true

/-- `msg.get("hops", 0) - 1`, then the relay if any hops remain. -/
def relay (msg : Msg) : Except PyErr (List Output) :=
  match getD msg (lit "hops") (.int 0) with
  | .int h => .ok (if h - 1 > 0 then [.relay (assign (lit "hops") (.int (h - 1)) msg)] else [])
  | .float h =>
    .ok (if h - 1 > 0 then [.relay (assign (lit "hops") (.float (h - 1)) msg)] else [])
  | .bool _ => .ok []
  | _ => .error .typeError

/-- The merge of one record under a hashable key. -/
def mergeTask (msg : Msg) (key : Key) (incoming : Task) : Outcome Unit :=
  match accepts (L.tasks.get? key) incoming with
  | .error e => { ret := .error e, ledger := L }
  | .ok false => { ret := .ok (), ledger := L }
  | .ok true =>
    let L' := { L with tasks := L.tasks.set key incoming }
    if L.logsOk (L.tasks.get? key) incoming then
      match relay msg with
      | .ok out => { ret := .ok (), ledger := L'.persist, out := out }
      | .error e => { ret := .error e, ledger := L'.persist }
    else { ret := .error .typeError, ledger := L' }

/-- The part of `handle_ledger_update` after the dedup check. -/
def handleFresh (P : Primitives) (msg : Msg) : Outcome Unit :=
  if verify P msg = false then { ret := .ok (), ledger := L }
  else if (get msg (lit "task")).truthy = false then { ret := .ok (), ledger := L }
  else match get msg (lit "task") with
    | .dict d =>
      match Task.fromDict d with
      | .error e => { ret := .error e, ledger := L }
      | .ok incoming =>
        match hashKey incoming.taskId with
        | .error e => { ret := .error e, ledger := L }
        | .ok key => L.mergeTask msg key incoming
    | _ => { ret := .error .attributeError, ledger := L }

/-- `handle_ledger_update`. -/
def handleLedgerUpdate (P : Primitives) (msg : Msg) : Outcome Unit :=
  if (get msg (lit "msg_id")).truthy = false
      ∨ pyIn (get msg (lit "msg_id")) L.seenIds.items = true then
    { ret := .ok (), ledger := L }
  else
    let L' := { L with seenIds := L.seenIds.append (get msg (lit "msg_id")) }
    L'.handleFresh P msg

end TaskLedger

end WhisperNet
