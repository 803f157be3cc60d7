import WhisperNet.Ledger.Task
import WhisperNet.Lib.Contest
import WhisperNet.Membership.State

/-!
# Snapshots of the Nodes

What `get_state` of a node answers to a poll, and the two programs that merge the
answers of all nodes: the table of the dashboard, and the payload of the web UI.
Both go through the snapshots and keep one record for each task. They differ in
when a record replaces the one before it, which the dashboard decides by the
status and the version and the web UI by the version alone.

The web UI also slices the holder of every task in progress, and raises where
there is none, so a payload is built or not. Of the figures of a node, what is
only handed on to the browser is left out.

The fields have the types that `Task` declares. `get_state` hands on whatever a
record holds, so after a malformed update a version or a holder may be anything;
such snapshots are left out.

## Main definitions

* `TaskView`, `PeerView`, `Snapshot`: What a node shows of itself.
* `taskTable`: The table of the dashboard.
* `buildPayload`: The payload of the web UI.
* `reports`: What the snapshots say of one task.
* `TableBeats`, `WebBeats`: When a record replaces the one before.

## Theorems

* `mem_taskTable`: The dashboard shows the champion of the reports.
* `mem_payload_view`: So does the web UI, by its own rule.
* `buildPayload_ok_iff`: When there is a payload.
-/

namespace WhisperNet

/-- A task as a node shows it, with integer versions as `Task` declares them. -/
structure TaskView where
  taskId : PyStr
  shardId : Int
  status : Status
  /-- the first eight characters of the holder's key -/
  leasedBy : Option PyStr
  result : Option PyStr
  version : Int
  deriving DecidableEq

structure PeerView where
  fullKey : PyStr
  status : PeerStatus
  deriving DecidableEq

/-- The answer of a node to a poll. The tasks are filed under their ids. -/
structure Snapshot where
  ourKey : PyStr
  peers : Dict PyStr PeerView
  tasks : Dict PyStr TaskView
  /-- what is compared with the last answer but not read -/
  others : PyVal := .none
  named : ∀ e ∈ tasks.entries, e.2.taskId = e.1

/-- A node that has one task. -/
def Snapshot.ofTask (ourKey : PyStr) (t : TaskView) : Snapshot where
  ourKey := ourKey
  peers := Dict.empty
  tasks := Dict.empty.set t.taskId t
  named := by
    intro e he
    rw [List.mem_singleton.mp he]

theorem Snapshot.get?_ofTask {ourKey tid : PyStr} {t u : TaskView}
    (h : (Snapshot.ofTask ourKey t).tasks.get? tid = some u) : u = t ∧ tid = t.taskId := by
  unfold ofTask at h
  rw [Dict.get?_set] at h
  split at h
  · exact ⟨(Option.some.inj h).symm, ‹_›⟩
  · simp only [Dict.get?, Dict.empty, lookup, reduceCtorEq] at h

/-- The answers by port; a node that does not answer has none. -/
abbrev NodeStates := List (Nat × Option Snapshot)

/-! ## The dashboard -/

/-- One task in the merge of `task_table`: completed status wins. -/
def mergeTableTask (merged : Dict PyStr TaskView) (tid : PyStr) (task : TaskView) :
    Dict PyStr TaskView :=
  match merged.get? tid with
  | none => merged.set tid task
  | some existing =>
    if task.status = .completed then merged.set tid task
    else if task.version > existing.version then merged.set tid task
    else merged

def mergeTable (states : List (Option Snapshot)) : Dict PyStr TaskView :=
  states.foldl (fun merged state =>
    match state with
    | none => merged
    | some s => s.tasks.entries.foldl (fun merged e => mergeTableTask merged e.1 e.2) merged)
    Dict.empty

/-- `task_table`: the rows, sorted by shard. -/
def taskTable (states : List (Option Snapshot)) : List (PyStr × TaskView) :=
  (mergeTable states).entries.insertionSort (fun a b => a.2.shardId ≤ b.2.shardId)

/-! ## The web UI -/

inductive NodeStatus
  | alive
  | suspected
  | dead
  | offline
  deriving DecidableEq, Repr

def PeerStatus.shown : PeerStatus → NodeStatus
  | .alive => .alive
  | .suspected => .suspected
  | .dead => .dead

structure NodeView where
  id : PyStr
  short : PyStr
  port : Nat
  status : NodeStatus
  deriving DecidableEq

/-- A task with the node whose snapshot it is from. -/
structure ReportedTask extends TaskView where
  reporter : PyStr
  deriving DecidableEq

structure Payload where
  nodes : List NodeView
  tasks : List ReportedTask

/-- The entry of a node, or a placeholder for one that is not reached. -/
def nodeView (port : Nat) : Option Snapshot → NodeView
  | none =>
    { id := lit "offline-" ++ decimal port
      short := lit ":" ++ decimal port
      port := port
      status := .offline }
  | some s => { id := s.ourKey, short := s.ourKey.take 8, port := port, status := .alive }

/-- The report of a peer counts for the nodes with its key that are still alive. -/
def propagate (nodes : List NodeView) (peer : PeerView) : List NodeView :=
  if peer.status = .suspected ∨ peer.status = .dead then
    nodes.map (fun n =>
      if n.id = peer.fullKey ∧ n.status = .alive then { n with status := peer.status.shown } else n)
  else nodes

/-- One task in the merge of `_build_payload`. -/
def mergeWebTask (ourKey : PyStr) (tasksById : Dict PyStr ReportedTask) (tid : PyStr)
    (t : TaskView) : Dict PyStr ReportedTask :=
  match tasksById.get? tid with
  | none => tasksById.set tid { t with reporter := ourKey }
  | some existing =>
    if t.version > existing.version then tasksById.set tid { t with reporter := ourKey }
    else tasksById

def mergeWeb (states : NodeStates) : Dict PyStr ReportedTask :=
  states.foldl (fun tasksById state =>
    match state.2 with
    | none => tasksById
    | some s =>
      s.tasks.entries.foldl (fun tasksById e => mergeWebTask s.ourKey tasksById e.1 e.2) tasksById)
    Dict.empty

/-- A task in progress under no lease, which the count of the tasks held slices. -/
def Snapshot.unheld (s : Snapshot) : Bool :=
  s.tasks.entries.any (fun e => e.2.status = .inProgress && e.2.leasedBy = none)

/-- `_build_payload`. -/
def buildPayload (states : NodeStates) : Except PyErr Payload :=
  if states.any (fun e => e.2.any Snapshot.unheld) then .error .typeError
  else .ok {
    nodes := (states.flatMap (fun e => e.2.toList.flatMap (fun s => s.peers.values))).foldl
      propagate (states.map (fun e => nodeView e.1 e.2))
    tasks := (mergeWeb states).values }

/-! ## What is shown of a task -/

/-- What the snapshots say of a task, in their order. -/
def reports (tid : PyStr) (states : NodeStates) : List TaskView :=
  states.filterMap (fun e => e.2.bind (fun s => s.tasks.get? tid))

/-- In the table, a completed record replaces any other, and a newer one too. -/
def TableBeats (x y : TaskView) : Prop := x.status = .completed ∨ y.version < x.version

/-- In the payload, a newer record replaces any other. -/
def WebBeats (x y : TaskView) : Prop := y.version < x.version

instance (x y : TaskView) : Decidable (TableBeats x y) :=
  inferInstanceAs (Decidable (x.status = .completed ∨ y.version < x.version))

instance (x y : TaskView) : Decidable (WebBeats x y) :=
  inferInstanceAs (Decidable (y.version < x.version))

theorem mergeTableTask_eq (merged : Dict PyStr TaskView) (tid : PyStr) (task : TaskView) :
    mergeTableTask merged tid task = contend TableBeats merged (tid, task) := by
  unfold mergeTableTask contend
  dsimp only
  cases merged.get? tid with
  | none => rfl
  | some existing =>
      dsimp only
      by_cases hcompleted : task.status = .completed
      · have hbeats : TableBeats task existing := Or.inl hcompleted
        rw [if_pos hcompleted, if_pos hbeats]
      · by_cases hnewer : task.version > existing.version
        · have hbeats : TableBeats task existing := Or.inr hnewer
          rw [if_neg hcompleted, if_pos hnewer, if_pos hbeats]
        · have hkept : ¬ TableBeats task existing := not_or_intro hcompleted hnewer
          rw [if_neg hcompleted, if_neg hnewer, if_neg hkept]

/-- A snapshot contends with the one record it has of a task. -/
theorem get?_tableSnapshot (s : Snapshot) (merged : Dict PyStr TaskView) (tid : PyStr) :
    (s.tasks.entries.foldl (fun merged e => mergeTableTask merged e.1 e.2) merged).get? tid =
      (s.tasks.get? tid).toList.foldl (challenge TableBeats) (merged.get? tid) := by
  simp only [mergeTableTask_eq]
  rw [get?_contend, Dict.filter_entries]

/-- The holder of a task in the table is the champion of the reports. -/
theorem get?_mergeTable (tid : PyStr) (states : NodeStates) :
    (mergeTable (states.map Prod.snd)).get? tid = champion TableBeats (reports tid states) := by
  unfold mergeTable
  rw [get?_merge TableBeats _ (fun state => state.bind (fun s => s.tasks.get? tid)) tid,
    List.filterMap_map]
  · rfl
  · intro merged state
    cases state with
    | none => rfl
    | some s => exact get?_tableSnapshot s merged tid

/-- The dashboard shows one record for each task. -/
theorem mem_taskTable (states : NodeStates) (tid : PyStr) (t : TaskView) :
    (tid, t) ∈ taskTable (states.map Prod.snd) ↔
      champion TableBeats (reports tid states) = some t := by
  unfold taskTable
  rw [List.mem_insertionSort, Dict.mem_entries_iff, get?_mergeTable]

/-! ## The records of the payload -/

/-- The rule of the payload on records with their reporters. -/
def Newer (x y : ReportedTask) : Prop := WebBeats x.toTaskView y.toTaskView

instance (x y : ReportedTask) : Decidable (Newer x y) :=
  inferInstanceAs (Decidable (WebBeats x.toTaskView y.toTaskView))

/-- What a snapshot says of a task, with its node. -/
def Snapshot.sourced (s : Snapshot) (tid : PyStr) : Option ReportedTask :=
  (s.tasks.get? tid).map (fun t => { t with reporter := s.ourKey })

/-- What the snapshots say of a task, with their nodes. -/
def sourced (tid : PyStr) (states : NodeStates) : List ReportedTask :=
  states.filterMap (fun e => e.2.bind (fun s => s.sourced tid))

theorem mergeWebTask_eq (ourKey : PyStr) (tasksById : Dict PyStr ReportedTask) (tid : PyStr)
    (t : TaskView) : mergeWebTask ourKey tasksById tid t =
      contend Newer tasksById (tid, { t with reporter := ourKey }) := by
  unfold mergeWebTask contend
  dsimp only
  cases tasksById.get? tid with
  | none => rfl
  | some existing => rfl

theorem get?_webSnapshot (s : Snapshot) (tasksById : Dict PyStr ReportedTask) (tid : PyStr) :
    (s.tasks.entries.foldl (fun tasksById e => mergeWebTask s.ourKey tasksById e.1 e.2)
      tasksById).get? tid =
      (s.sourced tid).toList.foldl (challenge Newer) (tasksById.get? tid) := by
  have hmap : ∀ es : List (PyStr × TaskView), ∀ d : Dict PyStr ReportedTask,
      es.foldl (fun tasksById e => mergeWebTask s.ourKey tasksById e.1 e.2) d =
        (es.map (fun e => (e.1, { e.2 with reporter := s.ourKey }))).foldl (contend Newer) d := by
    intro es d
    rw [List.foldl_map]
    simp only [mergeWebTask_eq]
  -- Only one of the entries has the id.
  have hpicked : (((s.tasks.entries.map (fun e =>
      ((e.1, { e.2 with reporter := s.ourKey }) : PyStr × ReportedTask))).filter
        (fun e => e.1 = tid)).map Prod.snd) = (s.sourced tid).toList := by
    rw [List.filter_map, List.map_map, Snapshot.sourced, Option.toList_map,
      ← Dict.filter_entries, List.map_map]
    rfl
  rw [hmap, get?_contend, hpicked]

theorem get?_mergeWeb (tid : PyStr) (states : NodeStates) :
    (mergeWeb states).get? tid = champion Newer (sourced tid states) := by
  unfold mergeWeb
  rw [get?_merge Newer _ (fun state => state.2.bind (fun s => s.sourced tid)) tid]
  · rfl
  · intro tasksById state
    cases hstate : state.2 with
    | none => rfl
    | some s => exact get?_webSnapshot s tasksById tid

theorem sourced_view (tid : PyStr) (states : NodeStates) :
    (sourced tid states).map ReportedTask.toTaskView = reports tid states := by
  unfold sourced reports
  rw [List.map_filterMap]
  congr 1
  funext e
  cases e.2 with
  | none => rfl
  | some s =>
      rw [Option.bind_some, Option.bind_some, Snapshot.sourced, Option.map_map]
      exact Option.map_id'

/-- A record in the payload is filed under its own id. -/
theorem mergeWeb_named {states : NodeStates} {tid : PyStr} {r : ReportedTask}
    (h : (mergeWeb states).get? tid = some r) : r.taskId = tid := by
  rw [get?_mergeWeb] at h
  rcases List.mem_filterMap.mp (champion_mem h) with ⟨e, _, htells⟩
  rcases Option.bind_eq_some_iff.mp htells with ⟨s, _, hsourced⟩
  rcases Option.map_eq_some_iff.mp hsourced with ⟨t, ht, hr⟩
  rw [← hr]
  exact s.named (tid, t) ((Dict.mem_entries_iff ..).mpr ht)

theorem buildPayload_ok_iff (states : NodeStates) :
    (∃ p, buildPayload states = .ok p) ↔ states.any (fun e => e.2.any Snapshot.unheld) = false := by
  unfold buildPayload
  cases states.any (fun e => e.2.any Snapshot.unheld) with
  | true => simp only [if_true, reduceCtorEq, exists_false]
  | false => simp only [Bool.false_eq_true, if_false, Except.ok.injEq, exists_eq']

theorem payload_tasks {states : NodeStates} {p : Payload} (h : buildPayload states = .ok p) :
    p.tasks = (mergeWeb states).values := by
  unfold buildPayload at h
  split at h
  · simp only [reduceCtorEq] at h
  · rw [← Except.ok.inj h]

/-- The payload holds the champion of the reports, by the rule of the web UI. -/
theorem mem_payload {states : NodeStates} {p : Payload} (h : buildPayload states = .ok p)
    (r : ReportedTask) : r ∈ p.tasks ↔ champion Newer (sourced r.taskId states) = some r := by
  rw [payload_tasks h, Dict.mem_values, ← get?_mergeWeb]
  constructor
  · rintro ⟨tid, hget⟩
    rw [mergeWeb_named hget]
    exact hget
  · exact fun hget => ⟨_, hget⟩

/-- The payload has one record for each task that is reported. -/
theorem mem_payload_view {states : NodeStates} {p : Payload} (h : buildPayload states = .ok p)
    (tid : PyStr) (t : TaskView) :
    (∃ r ∈ p.tasks, r.taskId = tid ∧ r.toTaskView = t) ↔
      champion WebBeats (reports tid states) = some t := by
  rw [← sourced_view, champion_map Newer ReportedTask.toTaskView (fun _ _ => Iff.rfl)
    (sourced tid states), Option.map_eq_some_iff]
  constructor
  · rintro ⟨r, hr, hid, hview⟩
    exact ⟨r, hid ▸ (mem_payload h r).mp hr, hview⟩
  · rintro ⟨r, hr, hview⟩
    have hid := mergeWeb_named ((get?_mergeWeb tid states).trans hr)
    refine ⟨r, (mem_payload h r).mpr ?_, hid, hview⟩
    rw [hid]
    exact hr

end WhisperNet
