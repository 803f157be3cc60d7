import WhisperNet.Demo.Poller
import WhisperNet.Lib.Custody

/-!
# Nodes That Come and Go

The web UI starts further nodes and stops them again. Each node is two processes, the
AXL node first and then the whisper node. A request for a new node reads the ports that
are registered, takes the port after the highest, starts the two processes, and registers
the port with them at the end. It holds no lock in between. A request to remove a node
takes the one with the highest port out of the registry, and then tells its two
processes to terminate. The requests run in threads of their own, and so does the
poller, which stores the answers of the ports it has read at the start of a poll.

A step of a request is an event, so a run is any interleaving of the requests, of the
poller and of processes that end by themselves. A process is known by its place among
all processes started so far. One that has been told to terminate no longer counts as
running, but it is there until it ends: a whisper node first gives its leases back. The
files of a node are known by its number, which stands in all their names.
Of the files it is left open which of the shards there are, by a parameter, and whether
a key must be made, by the events.

## Main definitions

* `Plan`, `nodePlan`: What is worked out for a new node.
* `Adding`, `Removing`: A request in between.
* `Hub`: What the web UI knows of the nodes, and what runs.
* `Hub.alive`: The processes that have not ended.
* `Hub.advance`: The next action of a request for a new node.
* `Hub.step`: An action of a request or of the poller, or the end of a process.
* `Hub.keeps`: The processes that a request or a registered node can still end.
* `Hub.move`: What an event does to the custody of the processes.
* `Hub.Clear`: No node is registered in the place of one that still runs.

## Theorems

* `Hub.act_of_step`: What a step can be.
* `Hub.custody_step`: Every event is a move of the custody of the processes.
* `Hub.safe_iff_clear`: Which events are safe moves.
* `Hub.processes_kept`: When no process gets lost.
-/

namespace WhisperNet

/-- What `api_nodes_add` works out for a new node. -/
structure Plan where
  port : Nat
  /-- the number of the node, in the names of its files, and its shard id -/
  num : Int
  caps : String
  price : ℚ
  axlApiPort : Int
  /-- the number of the shard file -/
  shardFile : Int
  clusterSize : Nat
  deriving DecidableEq

def capsCycle : List String := ["search", "summarize", "reason"]

/-- The plan for a node above the highest of the registered ports. -/
def nodePlan (hasShard : Int → Bool) (existing : List Nat) (top : Nat) : Plan :=
  let port := top + 1
  let num : Int := port - 8887
  let shardIdx := (num - 1) % 6 + 1
  { port := port
    num := num
    caps := capsCycle.getD ((num - 1) % 3).toNat ""
    price := 1 / 100
    axlApiPort := 9001 + num
    shardFile := if hasShard shardIdx then shardIdx else 1
    clusterSize := existing.length + 1 }

/-- The command line of a process. An AXL node has its configuration file, with the
    port that stands in there when it starts. -/
inductive Command
  | axl (num : Int) (apiPort : Option Int)
  | whisper (plan : Plan)
  deriving DecidableEq

def Command.num : Command → Int
  | axl num _ => num
  | whisper plan => plan.num

def Command.isWhisper : Command → Bool
  | axl _ _ => false
  | whisper _ => true

/-- How far a request for a new node has come, with the processes it has started. -/
inductive SpawnStage
  | planned
  | configured
  | keyed
  | axlUp (axl : Nat)
  | bothUp (axl whisper : Nat)
  deriving DecidableEq

def SpawnStage.procs : SpawnStage → List Nat
  | axlUp axl => [axl]
  | bothUp axl whisper => [axl, whisper]
  | _ => []

structure Adding where
  plan : Plan
  stage : SpawnStage
  deriving DecidableEq

/-- A node that has been taken out of the registry, with the processes that have not
    been told to terminate yet. -/
structure Removing where
  port : Nat
  procs : List Nat
  total : Nat
  deriving DecidableEq

/-- What a request is answered; `raised` is an exception that the handler lets through. -/
inductive NodeReply
  | added (port total : Nat)
  | removed (port total : Nat)
  | error (text : String) (status : Nat)
  | raised (exc : String)
  deriving DecidableEq

/-- What the web UI knows of the nodes, with the configuration files, the requests in
    between, and the processes. -/
structure Hub where
  nodeStates : Dict Nat (Option Snapshot)
  dynamicProcs : Dict Nat (Nat × Nat) := Dict.empty
  adding : Dict Nat Adding := Dict.empty
  removing : Dict Nat Removing := Dict.empty
  /-- the API port in the configuration file of each number -/
  axlCfg : Dict Int Int
  /-- all processes started so far -/
  launched : List Command := []
  /-- the processes that have not ended, and have not been told to -/
  running : List Nat := []
  /-- the processes that have been told to terminate and have not ended -/
  told : List Nat := []
  /-- the ports that are still to be asked in this poll -/
  todo : List Nat := []
  replies : List NodeReply := []

/-- `read`, `advance` and `remove`, `terminate` are the actions of a request, `poll` and
    `answer` those of the poller. An action that can fail has what it raises. -/
inductive HubEvent
  | read (r : Nat)
  | advance (r : Nat) (exc : Option String)
  | remove (r : Nat)
  | terminate (r : Nat)
  | exit (proc : Nat)
  | poll
  | answer (state : Option Snapshot)

namespace Hub

/-- The web UI at its start, with the nodes it is told to poll. -/
def start (ports : List Nat) (axlCfg : Dict Int Int) : Hub where
  nodeStates := ports.foldl (fun d port => d.set port none) Dict.empty
  axlCfg := axlCfg

def reply (h : Hub) (answer : NodeReply) : Hub := { h with replies := h.replies ++ [answer] }

/-- A request for a new node ends without one. -/
def giveUp (h : Hub) (r : Nat) (answer : NodeReply) : Hub :=
  { h.reply answer with adding := h.adding.erase r }

def goOn (h : Hub) (r : Nat) (plan : Plan) (stage : SpawnStage) : Hub :=
  { h with adding := h.adding.set r ⟨plan, stage⟩ }

def launch (h : Hub) (cmd : Command) : Hub :=
  { h with launched := h.launched ++ [cmd], running := h.running ++ [h.launched.length] }

/-- A process ends. -/
def quit (h : Hub) (proc : Nat) : Hub :=
  { h with
    running := h.running.filter (fun q => q ≠ proc)
    told := h.told.filter (fun q => q ≠ proc) }

/-- `proc.terminate()`, which does not wait for the end of the process. -/
def tell (h : Hub) (proc : Nat) : Hub :=
  { h with
    running := h.running.filter (fun q => q ≠ proc)
    told := h.told ++ h.running.filter (fun q => q = proc) }

/-- The processes that have not ended. -/
def alive (h : Hub) : List Nat := h.running ++ h.told

/-- The configuration file is written unless there is one. A write that fails is taken
    to leave no file. -/
def configure (h : Hub) (plan : Plan) : Hub :=
  { h with axlCfg := if (h.axlCfg.get? plan.num).isSome then h.axlCfg
      else h.axlCfg.set plan.num plan.axlApiPort }

def register (h : Hub) (plan : Plan) (axl whisper : Nat) : Hub :=
  { h with
    nodeStates := h.nodeStates.set plan.port none
    dynamicProcs := h.dynamicProcs.set plan.port (axl, whisper) }

/-- The next action of `api_nodes_add`, with the exception it raises. -/
def advance (h : Hub) (r : Nat) (plan : Plan) : SpawnStage → Option String → Option Hub
  | .planned, none => some ((h.configure plan).goOn r plan .configured)
  | .planned, some exc => some (h.giveUp r (.raised exc))
  | .configured, none => some (h.goOn r plan .keyed)
  | .configured, some exc => some (h.giveUp r (.error ("key gen failed: " ++ exc) 500))
  | .keyed, none =>
    some ((h.launch (.axl plan.num (h.axlCfg.get? plan.num))).goOn r plan
      (.axlUp h.launched.length))
  | .keyed, some exc => some (h.giveUp r (.error ("AXL start failed: " ++ exc) 500))
  | .axlUp axl, none =>
    some ((h.launch (.whisper plan)).goOn r plan (.bothUp axl h.launched.length))
  | .axlUp axl, some exc =>
    some ((h.tell axl).giveUp r (.error ("whisper start failed: " ++ exc) 500))
  | .bothUp axl whisper, none =>
    let h' := h.register plan axl whisper
    some (h'.giveUp r (.added plan.port h'.nodeStates.keys.length))
  | .bothUp _ _, some _ => none

/-- `api_nodes_remove` up to the end of its lock. -/
def takeOut (h : Hub) (r : Nat) : Hub :=
  match h.dynamicProcs.keys.max? with
  | none => h.reply (.error "no dynamic nodes to remove" 400)
  | some port =>
    match h.dynamicProcs.get? port with
    | none => h
    | some (axl, whisper) =>
      let nodeStates := h.nodeStates.erase port
      { h with
        nodeStates := nodeStates
        dynamicProcs := h.dynamicProcs.erase port
        removing := h.removing.set r ⟨port, [whisper, axl], nodeStates.keys.length⟩ }

variable (hasShard : Int → Bool)

/-- One event. -/
def step (h : Hub) : HubEvent → Option Hub
  | .read r =>
    if (h.adding.get? r).isSome then none
    else match h.nodeStates.keys.max? with
      | none => some (h.reply (.error "no base nodes registered" 400))
      | some top => some (h.goOn r (nodePlan hasShard h.nodeStates.keys top) .planned)
  | .advance r exc =>
    match h.adding.get? r with
    | none => none
    | some a => h.advance r a.plan a.stage exc
  | .remove r => if (h.removing.get? r).isSome then none else some (h.takeOut r)
  | .terminate r =>
    match h.removing.get? r with
    | none => none
    | some ⟨port, [], total⟩ =>
      some { h.reply (.removed port total) with removing := h.removing.erase r }
    | some ⟨port, proc :: procs, total⟩ =>
      some { h.tell proc with removing := h.removing.set r ⟨port, procs, total⟩ }
  | .exit proc => if proc ∈ h.alive then some (h.quit proc) else none
  | .poll => if h.todo = [] then some { h with todo := h.nodeStates.keys } else none
  | .answer state =>
    match h.todo with
    | [] => none
    | port :: todo =>
      if sameAnswer state (h.nodeStates.get? port).join then some { h with todo := todo }
      else some { h with todo := todo, nodeStates := h.nodeStates.set port state }

end Hub

/-- Who can still end a process. -/
inductive Keeper
  | request (r : Nat)
  | node (port : Nat)
  | removal (r : Nat)
  deriving DecidableEq

namespace Hub

/-- The port of a keeper and the processes that it can still end. -/
def crew (h : Hub) : Keeper → Option (Nat × List Nat)
  | .request r => (h.adding.get? r).map (fun a => (a.plan.port, a.stage.procs))
  | .node port => (h.dynamicProcs.get? port).map (fun p => (port, [p.1, p.2]))
  | .removal r => (h.removing.get? r).map (fun m => (m.port, m.procs))

def keeps (h : Hub) (x : Keeper) : List Nat := ((h.crew x).map Prod.snd).getD []

def custody (h : Hub) : Custody Keeper Nat where
  holds x := {p | p ∈ h.keeps x}
  running := {p | p ∈ h.running}
  granted := {p | p < h.launched.length}

/-- What an action of a request for a new node does to the custody of the processes. -/
def advanceMove (h : Hub) (r : Nat) (plan : Plan) : SpawnStage → Option String → Move Keeper Nat
  | .keyed, none => .grant (.request r) h.launched.length
  | .axlUp _, none => .grant (.request r) h.launched.length
  | .axlUp axl, some _ => .release (.request r) axl
  | .bothUp _ _, none => .pass (.request r) (.node plan.port)
  | _, _ => .stay

/-- What an event does to the custody of the processes. -/
def move (h : Hub) : HubEvent → Move Keeper Nat
  | .advance r exc =>
    match h.adding.get? r with
    | none => .stay
    | some a => h.advanceMove r a.plan a.stage exc
  | .remove r =>
    match h.dynamicProcs.keys.max? with
    | none => .stay
    | some port => .pass (.node port) (.removal r)
  | .terminate r =>
    match h.removing.get? r with
    | some ⟨_, proc :: _, _⟩ => .release (.removal r) proc
    | _ => .stay
  | .exit proc => .fade proc
  | _ => .stay

variable (hasShard : Int → Bool) {h h' : Hub}

/-- What a step can be, with the branch that was taken. -/
inductive Act (h : Hub) : HubEvent → Hub → Prop
  | refused (r : Nat) (answer : NodeReply) : Act h (.read r) (h.reply answer)
  | planned (r top : Nat) (hr : h.adding.get? r = none) (hmax : h.nodeStates.keys.max? = some top) :
      Act h (.read r) (h.goOn r (nodePlan hasShard h.nodeStates.keys top) .planned)
  | configured (r : Nat) (plan : Plan) (ha : h.adding.get? r = some ⟨plan, .planned⟩) :
      Act h (.advance r none) ((h.configure plan).goOn r plan .configured)
  | keyed (r : Nat) (plan : Plan) (ha : h.adding.get? r = some ⟨plan, .configured⟩) :
      Act h (.advance r none) (h.goOn r plan .keyed)
  | failed (r : Nat) (plan : Plan) (stage : SpawnStage) (exc : String) (answer : NodeReply)
      (ha : h.adding.get? r = some ⟨plan, stage⟩) (hprocs : stage.procs = []) :
      Act h (.advance r (some exc)) (h.giveUp r answer)
  | axl (r : Nat) (plan : Plan) (ha : h.adding.get? r = some ⟨plan, .keyed⟩) :
      Act h (.advance r none) ((h.launch (.axl plan.num (h.axlCfg.get? plan.num))).goOn r plan
        (.axlUp h.launched.length))
  | whisper (r : Nat) (plan : Plan) (axl : Nat) (ha : h.adding.get? r = some ⟨plan, .axlUp axl⟩) :
      Act h (.advance r none) ((h.launch (.whisper plan)).goOn r plan
        (.bothUp axl h.launched.length))
  | dropped (r : Nat) (plan : Plan) (axl : Nat) (exc : String) (answer : NodeReply)
      (ha : h.adding.get? r = some ⟨plan, .axlUp axl⟩) :
      Act h (.advance r (some exc)) ((h.tell axl).giveUp r answer)
  | registered (r : Nat) (plan : Plan) (axl whisper : Nat) (answer : NodeReply)
      (ha : h.adding.get? r = some ⟨plan, .bothUp axl whisper⟩) :
      Act h (.advance r none) ((h.register plan axl whisper).giveUp r answer)
  | nothing (r : Nat) (answer : NodeReply) (hmax : h.dynamicProcs.keys.max? = none) :
      Act h (.remove r) (h.reply answer)
  | taken (r port : Nat) (hr : h.removing.get? r = none)
      (hmax : h.dynamicProcs.keys.max? = some port) : Act h (.remove r) (h.takeOut r)
  | told (r port total proc : Nat) (procs : List Nat)
      (hr : h.removing.get? r = some ⟨port, proc :: procs, total⟩) :
      Act h (.terminate r)
        { h.tell proc with removing := h.removing.set r ⟨port, procs, total⟩ }
  | removed (r port total : Nat) (answer : NodeReply)
      (hr : h.removing.get? r = some ⟨port, [], total⟩) :
      Act h (.terminate r) { h.reply answer with removing := h.removing.erase r }
  | exited (proc : Nat) (hp : proc ∈ h.alive) : Act h (.exit proc) (h.quit proc)
  | polled : Act h .poll { h with todo := h.nodeStates.keys }
  | same (state : Option Snapshot) (port : Nat) (todo : List Nat) (htodo : h.todo = port :: todo)
      (hsame : sameAnswer state (h.nodeStates.get? port).join = true) :
      Act h (.answer state) { h with todo := todo }
  | stored (state : Option Snapshot) (port : Nat) (todo : List Nat) (htodo : h.todo = port :: todo)
      (hnew : sameAnswer state (h.nodeStates.get? port).join = false) :
      Act h (.answer state) { h with todo := todo, nodeStates := h.nodeStates.set port state }

/-- An action of a request for a new node, by how far the request has come. -/
theorem act_of_advance {r : Nat} {plan : Plan} {stage : SpawnStage} {exc : Option String}
    (ha : h.adding.get? r = some ⟨plan, stage⟩) (hstep : h.advance r plan stage exc = some h') :
    Act hasShard h (.advance r exc) h' := by
  cases exc with
  | none =>
      cases stage with
      | planned => exact Option.some.inj hstep ▸ .configured r plan ha
      | configured => exact Option.some.inj hstep ▸ .keyed r plan ha
      | keyed => exact Option.some.inj hstep ▸ .axl r plan ha
      | axlUp axl => exact Option.some.inj hstep ▸ .whisper r plan axl ha
      | bothUp axl whisper => exact Option.some.inj hstep ▸ .registered r plan axl whisper _ ha
  | some exc =>
      cases stage with
      | planned => exact Option.some.inj hstep ▸ .failed r plan _ exc _ ha rfl
      | configured => exact Option.some.inj hstep ▸ .failed r plan _ exc _ ha rfl
      | keyed => exact Option.some.inj hstep ▸ .failed r plan _ exc _ ha rfl
      | axlUp axl => exact Option.some.inj hstep ▸ .dropped r plan axl exc _ ha
      | bothUp axl whisper => simp only [advance, reduceCtorEq] at hstep

/-- Every step is one of the actions. -/
theorem act_of_step {e : HubEvent} (hstep : h.step hasShard e = some h') :
    Act hasShard h e h' := by
  cases e with
  | read r =>
      simp only [step] at hstep
      split at hstep
      · simp only [reduceCtorEq] at hstep
      · rename_i hr
        split at hstep
        · exact Option.some.inj hstep ▸ .refused r _
        · rename_i top hmax
          exact Option.some.inj hstep ▸ .planned r top (Option.not_isSome_iff_eq_none.mp hr) hmax
  | advance r exc =>
      simp only [step] at hstep
      split at hstep
      · simp only [reduceCtorEq] at hstep
      · exact act_of_advance hasShard ‹_› hstep
  | remove r =>
      simp only [step] at hstep
      split at hstep
      · simp only [reduceCtorEq] at hstep
      · rename_i hr
        rw [← Option.some.inj hstep]
        cases hmax : h.dynamicProcs.keys.max? with
        | none =>
            rw [takeOut, hmax]
            exact .nothing r _ hmax
        | some port => exact .taken r port (Option.not_isSome_iff_eq_none.mp hr) hmax
  | terminate r =>
      simp only [step] at hstep
      split at hstep
      · simp only [reduceCtorEq] at hstep
      · exact Option.some.inj hstep ▸ .removed r _ _ _ ‹_›
      · exact Option.some.inj hstep ▸ .told r _ _ _ _ ‹_›
  | exit proc =>
      simp only [step] at hstep
      split at hstep
      · exact Option.some.inj hstep ▸ .exited proc ‹_›
      · simp only [reduceCtorEq] at hstep
  | poll =>
      simp only [step] at hstep
      split at hstep
      · exact Option.some.inj hstep ▸ .polled
      · simp only [reduceCtorEq] at hstep
  | answer state =>
      simp only [step] at hstep
      split at hstep
      · simp only [reduceCtorEq] at hstep
      · rename_i port todo htodo
        split at hstep
        · rename_i hsame
          exact Option.some.inj hstep ▸ .same state port todo htodo hsame
        · rename_i hnew
          exact Option.some.inj hstep ▸
            .stored state port todo htodo (Bool.eq_false_iff.mpr hnew)

/-! ## What the parts of an action change -/

section Parts

variable (r : Nat) (plan : Plan) (stage : SpawnStage) (answer : NodeReply) (cmd : Command)

theorem crew_goOn (x : Keeper) : (h.goOn r plan stage).crew x =
    if x = .request r then some (plan.port, stage.procs) else h.crew x := by
  cases x with
  | request r' =>
      simp only [crew, goOn, Dict.get?_set, Keeper.request.injEq]
      split <;> rfl
  | node port => rfl
  | removal r' => rfl

theorem crew_giveUp (x : Keeper) :
    (h.giveUp r answer).crew x = if x = .request r then none else h.crew x := by
  cases x with
  | request r' =>
      by_cases hr : r' = r
      · rw [if_pos (congrArg Keeper.request hr), hr]
        simp only [crew, giveUp, Dict.get?_erase_self, Option.map_none]
      · rw [if_neg (fun heq => hr (Keeper.request.inj heq))]
        simp only [crew, giveUp, reply, Dict.get?_erase_of_ne _ _ _ hr]
  | node port => rfl
  | removal r' => rfl

theorem crew_register (axl whisper : Nat) (x : Keeper) : (h.register plan axl whisper).crew x =
    if x = .node plan.port then some (plan.port, [axl, whisper]) else h.crew x := by
  cases x with
  | node port =>
      simp only [crew, register, Dict.get?_set, Keeper.node.injEq]
      split
      · rename_i hport
        rw [hport]
        rfl
      · rfl
  | request r' => rfl
  | removal r' => rfl

theorem crew_launch (x : Keeper) : (h.launch cmd).crew x = h.crew x := by
  cases x <;> rfl

theorem crew_quit (proc : Nat) (x : Keeper) : (h.quit proc).crew x = h.crew x := by
  cases x <;> rfl

theorem crew_tell (proc : Nat) (x : Keeper) : (h.tell proc).crew x = h.crew x := by
  cases x <;> rfl

theorem crew_configure (x : Keeper) : (h.configure plan).crew x = h.crew x := by
  cases x <;> rfl

theorem crew_request {a : Adding} (ha : h.adding.get? r = some a) :
    h.crew (.request r) = some (a.plan.port, a.stage.procs) := by
  rw [crew, ha, Option.map_some]

theorem crew_removal {m : Removing} (hr : h.removing.get? r = some m) :
    h.crew (.removal r) = some (m.port, m.procs) := by
  rw [crew, hr, Option.map_some]

theorem keeps_request {a : Adding} (ha : h.adding.get? r = some a) :
    h.keeps (.request r) = a.stage.procs := by
  rw [keeps, crew_request r ha]
  rfl

theorem keeps_removal {m : Removing} (hr : h.removing.get? r = some m) :
    h.keeps (.removal r) = m.procs := by
  rw [keeps, crew_removal r hr]
  rfl

/-- A node that is taken out has been registered. -/
theorem takeOut_eq {port : Nat} (hmax : h.dynamicProcs.keys.max? = some port) :
    ∃ axl whisper, h.dynamicProcs.get? port = some (axl, whisper) ∧
      h.takeOut r = { h with
        nodeStates := h.nodeStates.erase port
        dynamicProcs := h.dynamicProcs.erase port
        removing := h.removing.set r
          ⟨port, [whisper, axl], (h.nodeStates.erase port).keys.length⟩ } := by
  rcases (Dict.mem_keys _ _).mp (List.max?_mem hmax) with ⟨⟨axl, whisper⟩, hprocs⟩
  refine ⟨axl, whisper, hprocs, ?_⟩
  rw [takeOut, hmax]
  simp only [hprocs]

/-- The processes of a node that is taken out are with the removal. -/
theorem crew_takeOut {port : Nat} (hmax : h.dynamicProcs.keys.max? = some port) (x : Keeper) :
    (h.takeOut r).crew x = if x = .node port then none else
      if x = .removal r then some (port, (h.keeps (.node port)).reverse) else h.crew x := by
  rcases takeOut_eq r hmax with ⟨axl, whisper, hprocs, heq⟩
  rw [heq]
  cases x with
  | request r' => rfl
  | node port' =>
      by_cases hp : port' = port
      · rw [if_pos (congrArg Keeper.node hp), hp]
        simp only [crew, Dict.get?_erase_self, Option.map_none]
      · rw [if_neg (fun heq => hp (Keeper.node.inj heq)), if_neg (fun heq => by cases heq)]
        simp only [crew, Dict.get?_erase_of_ne _ _ _ hp]
  | removal r' =>
      rw [if_neg (fun heq => by cases heq)]
      by_cases hr' : r' = r
      · rw [if_pos (congrArg Keeper.removal hr'), hr']
        simp only [crew, keeps, Dict.get?_set_self, hprocs]
        rfl
      · rw [if_neg (fun heq => hr' (Keeper.removal.inj heq))]
        simp only [crew, Dict.get?_set_of_ne _ _ _ _ hr']

/-- The processes that a removal has not told yet. -/
theorem crew_told {port total proc : Nat} {procs : List Nat} (x : Keeper) :
    ({ h.tell proc with removing := h.removing.set r ⟨port, procs, total⟩ } : Hub).crew x =
      if x = .removal r then some (port, procs) else h.crew x := by
  cases x with
  | request r' => rfl
  | node port' => rfl
  | removal r' =>
      simp only [crew, Dict.get?_set, Keeper.removal.injEq]
      split <;> rfl

theorem crew_removed (x : Keeper) :
    ({ h.reply answer with removing := h.removing.erase r } : Hub).crew x =
      if x = .removal r then none else h.crew x := by
  cases x with
  | request r' => rfl
  | node port' => rfl
  | removal r' =>
      by_cases hr' : r' = r
      · rw [if_pos (congrArg Keeper.removal hr'), hr']
        simp only [crew, Dict.get?_erase_self, Option.map_none]
      · rw [if_neg (fun heq => hr' (Keeper.removal.inj heq))]
        simp only [crew, Dict.get?_erase_of_ne _ _ _ hr']

/-- A keeper whose crew is replaced has the new processes. -/
theorem keeps_of_crew {d : Hub} {x y : Keeper} {c : Option (Nat × List Nat)}
    (hcrew : d.crew y = if y = x then c else h.crew y) :
    d.keeps y = if y = x then (c.map Prod.snd).getD [] else h.keeps y := by
  rw [keeps, hcrew]
  split <;> rfl

theorem keeps_goOn (x : Keeper) :
    (h.goOn r plan stage).keeps x = if x = .request r then stage.procs else h.keeps x :=
  keeps_of_crew (crew_goOn r plan stage x)

theorem keeps_giveUp (x : Keeper) :
    (h.giveUp r answer).keeps x = if x = .request r then [] else h.keeps x :=
  keeps_of_crew (crew_giveUp r answer x)

theorem keeps_register (axl whisper : Nat) (x : Keeper) : (h.register plan axl whisper).keeps x =
    if x = .node plan.port then [axl, whisper] else h.keeps x :=
  keeps_of_crew (crew_register plan axl whisper x)

theorem keeps_launch (x : Keeper) : (h.launch cmd).keeps x = h.keeps x := by
  rw [keeps, keeps, crew_launch]

theorem keeps_quit (proc : Nat) (x : Keeper) : (h.quit proc).keeps x = h.keeps x := by
  rw [keeps, keeps, crew_quit]

theorem keeps_tell (proc : Nat) (x : Keeper) : (h.tell proc).keeps x = h.keeps x := by
  rw [keeps, keeps, crew_tell]

theorem keeps_takeOut {port : Nat} (hmax : h.dynamicProcs.keys.max? = some port) (x : Keeper) :
    (h.takeOut r).keeps x = if x = .node port then [] else
      if x = .removal r then (h.keeps (.node port)).reverse else h.keeps x := by
  rw [keeps, crew_takeOut r hmax]
  split
  · rfl
  · split <;> rfl

theorem keeps_told {port total proc : Nat} {procs : List Nat} (x : Keeper) :
    ({ h.tell proc with removing := h.removing.set r ⟨port, procs, total⟩ } : Hub).keeps x =
      if x = .removal r then procs else h.keeps x :=
  keeps_of_crew (crew_told r x)

theorem keeps_removed (x : Keeper) :
    ({ h.reply answer with removing := h.removing.erase r } : Hub).keeps x =
      if x = .removal r then [] else h.keeps x :=
  keeps_of_crew (crew_removed r answer x)

theorem keeps_goOn_same (hprocs : h.keeps (.request r) = stage.procs) (x : Keeper) :
    (h.goOn r plan stage).keeps x = h.keeps x := by
  rw [keeps_goOn]
  split
  · rename_i hx
    rw [hx, hprocs]
  · rfl

theorem keeps_giveUp_same (hprocs : h.keeps (.request r) = []) (x : Keeper) :
    (h.giveUp r answer).keeps x = h.keeps x := by
  rw [keeps_giveUp]
  split
  · rename_i hx
    rw [hx, hprocs]
  · rfl

theorem mem_running_quit (proc q : Nat) : q ∈ (h.quit proc).running ↔ q ∈ h.running ∧ q ≠ proc := by
  simp only [quit, List.mem_filter, decide_eq_true_eq]

theorem mem_running_tell (proc q : Nat) : q ∈ (h.tell proc).running ↔ q ∈ h.running ∧ q ≠ proc := by
  simp only [tell, List.mem_filter, decide_eq_true_eq]

end Parts

/-- Two states of the custody that agree on every process. -/
theorem custody_ext {d : Hub} {c : Custody Keeper Nat}
    (hholds : ∀ x q, q ∈ d.keeps x ↔ q ∈ c.holds x) (hruns : ∀ q, q ∈ d.running ↔ q ∈ c.running)
    (hgranted : ∀ q, q < d.launched.length ↔ q ∈ c.granted) : d.custody = c := by
  cases c with
  | mk holds running granted =>
      rw [custody, Custody.mk.injEq]
      exact ⟨funext (fun x => Set.ext (hholds x)), Set.ext hruns, Set.ext hgranted⟩

/-- What goes on without a process. -/
theorem custody_stay {d : Hub} (hkeeps : ∀ x, d.keeps x = h.keeps x)
    (hruns : d.running = h.running) (hlaunched : d.launched = h.launched) :
    d.custody = h.custody :=
  custody_ext (fun x q => by rw [hkeeps x]; rfl) (fun q => by rw [hruns]; rfl)
    (fun q => by rw [hlaunched]; rfl)

/-! ## The custody of the processes -/

theorem custody_launch {r : Nat} {plan : Plan} {stage stage' : SpawnStage} {cmd : Command}
    (ha : h.adding.get? r = some ⟨plan, stage⟩)
    (hprocs : stage'.procs = stage.procs ++ [h.launched.length]) :
    ((h.launch cmd).goOn r plan stage').custody =
      h.custody.apply (.grant (.request r) h.launched.length) := by
  refine custody_ext (fun x q => ?_) (fun q => ?_) (fun q => ?_)
  · rw [keeps_goOn, keeps_launch, Custody.mem_grant]
    by_cases hx : x = .request r
    · rw [if_pos hx, hx, hprocs, List.mem_append, List.mem_singleton]
      change _ ↔ q ∈ h.keeps (.request r) ∨ _
      rw [keeps_request r ha]
      simp only [true_and]
    · rw [if_neg hx]
      change _ ↔ q ∈ h.keeps x ∨ _
      simp only [hx, false_and, or_false]
  · change q ∈ h.running ++ [h.launched.length] ↔ q = h.launched.length ∨ q ∈ h.running
    rw [List.mem_append, List.mem_singleton, or_comm]
  · change q < (h.launched ++ [cmd]).length ↔ q = h.launched.length ∨ q < h.launched.length
    rw [List.length_append, List.length_singleton]
    omega

theorem custody_drop {r : Nat} {plan : Plan} {axl : Nat} {answer : NodeReply}
    (ha : h.adding.get? r = some ⟨plan, .axlUp axl⟩) :
    ((h.tell axl).giveUp r answer).custody = h.custody.apply (.release (.request r) axl) := by
  refine custody_ext (fun x q => ?_) (fun q => mem_running_tell axl q) (fun q => Iff.rfl)
  rw [keeps_giveUp, keeps_tell, Custody.mem_release]
  by_cases hx : x = .request r
  · rw [if_pos hx, hx]
    change _ ↔ q ∈ h.keeps (.request r) ∧ _
    rw [keeps_request r ha]
    simp only [SpawnStage.procs, List.mem_singleton, List.not_mem_nil, true_and, and_not_self]
  · rw [if_neg hx]
    change _ ↔ q ∈ h.keeps x ∧ _
    simp only [hx, false_and, not_false_eq_true, and_true]

theorem custody_register {r : Nat} {plan : Plan} {axl whisper : Nat} {answer : NodeReply}
    (ha : h.adding.get? r = some ⟨plan, .bothUp axl whisper⟩) :
    ((h.register plan axl whisper).giveUp r answer).custody =
      h.custody.apply (.pass (.request r) (.node plan.port)) := by
  refine custody_ext (fun x q => ?_) (fun q => Iff.rfl) (fun q => Iff.rfl)
  rw [keeps_giveUp, keeps_register, Custody.mem_pass (by simp only [ne_eq, reduceCtorEq,
    not_false_eq_true])]
  change _ ↔ (_ ∧ q ∈ h.keeps (.request r)) ∨ (_ ∧ _ ∧ q ∈ h.keeps x)
  rw [keeps_request r ha]
  by_cases hx : x = .request r
  · rw [if_pos hx, hx]
    simp only [List.not_mem_nil, reduceCtorEq, false_and, ne_eq, not_true_eq_false, or_self]
  · by_cases hn : x = .node plan.port
    · rw [if_neg hx, if_pos hn]
      simp only [SpawnStage.procs, hn, ne_eq, not_true_eq_false, false_and, and_false, or_false,
        true_and]
    · rw [if_neg hx, if_neg hn]
      simp only [hx, hn, false_and, ne_eq, not_false_eq_true, true_and, false_or]

theorem custody_takeOut {r port : Nat} (hmax : h.dynamicProcs.keys.max? = some port) :
    (h.takeOut r).custody = h.custody.apply (.pass (.node port) (.removal r)) := by
  rcases takeOut_eq r hmax with ⟨axl, whisper, -, heq⟩
  refine custody_ext (fun x q => ?_) (fun q => by rw [heq]; rfl) (fun q => by rw [heq]; rfl)
  rw [keeps_takeOut r hmax, Custody.mem_pass (by simp only [ne_eq, reduceCtorEq,
    not_false_eq_true])]
  change _ ↔ (_ ∧ q ∈ h.keeps (.node port)) ∨ (_ ∧ _ ∧ q ∈ h.keeps x)
  by_cases hn : x = .node port
  · rw [if_pos hn, hn]
    simp only [List.not_mem_nil, reduceCtorEq, false_and, ne_eq, not_true_eq_false, or_self]
  · by_cases hx : x = .removal r
    · rw [if_neg hn, if_pos hx, List.mem_reverse]
      simp only [hx, true_and, ne_eq, not_true_eq_false, false_and, and_false, or_false]
    · rw [if_neg hn, if_neg hx]
      simp only [hn, hx, false_and, ne_eq, not_false_eq_true, true_and, false_or]

theorem custody_terminate {r port total proc : Nat} {procs : List Nat}
    (hr : h.removing.get? r = some ⟨port, proc :: procs, total⟩) (hfresh : proc ∉ procs) :
    ({ h.tell proc with removing := h.removing.set r ⟨port, procs, total⟩ } : Hub).custody =
      h.custody.apply (.release (.removal r) proc) := by
  refine custody_ext (fun x q => ?_) (fun q => mem_running_tell proc q) (fun q => Iff.rfl)
  rw [keeps_told, Custody.mem_release]
  change _ ↔ q ∈ h.keeps x ∧ _
  by_cases hx : x = .removal r
  · rw [if_pos hx, hx, keeps_removal r hr, List.mem_cons]
    simp only [true_and]
    -- The rest does not have the process that has been told.
    exact ⟨fun hq => ⟨Or.inr hq, fun heq => hfresh (heq ▸ hq)⟩, fun hq => hq.1.resolve_left hq.2⟩
  · rw [if_neg hx]
    simp only [hx, false_and, not_false_eq_true, and_true]

/-! ## Nothing is held twice -/

/-- The custody is proper, and no keeper has a process twice. -/
structure Sane (h : Hub) : Prop where
  proper : h.custody.Proper
  nodup : ∀ x, (h.keeps x).Nodup

/-- A process that is held has been started. -/
theorem Sane.lt (hs : h.Sane) {x : Keeper} {q : Nat} (hq : q ∈ h.keeps x) : q < h.launched.length :=
  hs.proper.held x hq

/-- Every event is a move of the custody. -/
theorem custody_step {e : HubEvent} (hs : h.Sane) (hstep : h.step hasShard e = some h') :
    h'.custody = h.custody.apply (h.move e) := by
  cases act_of_step hasShard hstep with
  | refused r answer => rfl
  | planned r top hr hmax =>
      exact custody_stay (keeps_goOn_same r _ _ (by rw [keeps, crew, hr]; rfl)) rfl rfl
  | configured r plan ha =>
      rw [move, ha]
      exact custody_stay (keeps_goOn_same r plan .configured (keeps_request r ha)) rfl rfl
  | keyed r plan ha =>
      rw [move, ha]
      exact custody_stay (keeps_goOn_same r plan .keyed (keeps_request r ha)) rfl rfl
  | failed r plan stage exc answer ha hprocs =>
      have hmove : h.advanceMove r plan stage (some exc) = .stay := by
        cases stage with
        | axlUp axl => cases hprocs
        | bothUp axl whisper => rfl
        | planned => rfl
        | configured => rfl
        | keyed => rfl
      rw [move, ha]
      dsimp only
      rw [hmove]
      exact custody_stay (keeps_giveUp_same r _ ((keeps_request r ha).trans hprocs)) rfl rfl
  | axl r plan ha =>
      rw [move, ha]
      exact custody_launch ha rfl
  | whisper r plan axl ha =>
      rw [move, ha]
      exact custody_launch ha rfl
  | dropped r plan axl exc answer ha =>
      rw [move, ha]
      exact custody_drop ha
  | registered r plan axl whisper answer ha =>
      rw [move, ha]
      exact custody_register ha
  | nothing r answer hmax =>
      rw [move, hmax]
      rfl
  | taken r port hr hmax =>
      rw [move, hmax]
      exact custody_takeOut hmax
  | told r port total proc procs hr =>
      have hnodup := hs.nodup (.removal r)
      rw [keeps_removal r hr, List.nodup_cons] at hnodup
      rw [move, hr]
      exact custody_terminate hr hnodup.1
  | removed r port total answer hr =>
      rw [move, hr]
      refine custody_stay (fun x => ?_) rfl rfl
      rw [keeps_removed]
      split
      · rename_i hx
        rw [hx, keeps_removal r hr]
      · rfl
  | exited proc hp =>
      exact custody_ext (fun x q => by rw [keeps_quit]; rfl) (mem_running_quit proc)
        (fun q => Iff.rfl)
  | polled => rfl
  | same state port todo htodo hsame => rfl
  | stored state port todo htodo hnew => rfl

/-- A request hands over only its own processes, and only a new process is granted. -/
theorem sound_move {e : HubEvent} (hstep : h.step hasShard e = some h') :
    h.custody.Sound (h.move e) := by
  cases act_of_step hasShard hstep with
  | refused r answer => trivial
  | planned r top hr hmax => trivial
  | configured r plan ha => rw [move, ha]; trivial
  | keyed r plan ha => rw [move, ha]; trivial
  | failed r plan stage exc answer ha hprocs =>
      rw [move, ha]
      cases stage with
      | axlUp axl => cases hprocs
      | _ => trivial
  | axl r plan ha =>
      rw [move, ha]
      exact Nat.lt_irrefl _
  | whisper r plan axl ha =>
      rw [move, ha]
      exact Nat.lt_irrefl _
  | dropped r plan axl exc answer ha => rw [move, ha]; trivial
  | registered r plan axl whisper answer ha =>
      rw [move, ha]
      exact fun heq => by cases heq
  | nothing r answer hmax => rw [move, hmax]; trivial
  | taken r port hr hmax =>
      rw [move, hmax]
      exact fun heq => by cases heq
  | told r port total proc procs hr => rw [move, hr]; trivial
  | removed r port total answer hr => rw [move, hr]; trivial
  | exited proc hp => trivial
  | polled => trivial
  | same state port todo htodo hsame => trivial
  | stored state port todo htodo hnew => trivial

/-- No event gives a keeper a process twice. -/
theorem nodup_step {e : HubEvent} (hs : h.Sane) (hstep : h.step hasShard e = some h')
    (x : Keeper) : (h'.keeps x).Nodup := by
  have hold := hs.nodup x
  cases act_of_step hasShard hstep with
  | refused r answer => exact hold
  | planned r top hr hmax =>
      rw [keeps_goOn]
      split
      · exact List.nodup_nil
      · exact hold
  | configured r plan ha =>
      rw [keeps_goOn]
      split
      · exact List.nodup_nil
      · exact hold
  | keyed r plan ha =>
      rw [keeps_goOn]
      split
      · exact List.nodup_nil
      · exact hold
  | failed r plan stage exc answer ha hprocs =>
      rw [keeps_giveUp]
      split
      · exact List.nodup_nil
      · exact hold
  | axl r plan ha =>
      rw [keeps_goOn, keeps_launch]
      split
      · exact List.nodup_singleton _
      · exact hold
  | whisper r plan axl ha =>
      rw [keeps_goOn, keeps_launch]
      split
      · -- The AXL node has been started before.
        have hlt : axl < h.launched.length := by
          refine hs.lt (x := .request r) ?_
          rw [keeps_request r ha]
          exact List.mem_singleton_self axl
        rw [SpawnStage.procs, List.nodup_cons]
        exact ⟨fun hmem => absurd (List.mem_singleton.mp hmem) (by omega),
          List.nodup_singleton _⟩
      · exact hold
  | dropped r plan axl exc answer ha =>
      rw [keeps_giveUp, keeps_tell]
      split
      · exact List.nodup_nil
      · exact hold
  | registered r plan axl whisper answer ha =>
      have hprocs := hs.nodup (.request r)
      rw [keeps_request r ha] at hprocs
      rw [keeps_giveUp, keeps_register]
      split
      · exact List.nodup_nil
      · split
        · exact hprocs
        · exact hold
  | nothing r answer hmax => exact hold
  | taken r port hr hmax =>
      rw [keeps_takeOut r hmax]
      split
      · exact List.nodup_nil
      · split
        · exact List.nodup_reverse.mpr (hs.nodup (.node port))
        · exact hold
  | told r port total proc procs hr =>
      have hprocs := hs.nodup (.removal r)
      rw [keeps_removal r hr, List.nodup_cons] at hprocs
      rw [keeps_told]
      split
      · exact hprocs.2
      · exact hold
  | removed r port total answer hr =>
      rw [keeps_removed]
      split
      · exact List.nodup_nil
      · exact hold
  | exited proc hp =>
      rw [keeps_quit]
      exact hold
  | polled => exact hold
  | same state port todo htodo hsame => exact hold
  | stored state port todo htodo hnew => exact hold

theorem sane_step {e : HubEvent} (hs : h.Sane) (hstep : h.step hasShard e = some h') :
    h'.Sane where
  proper := by
    rw [custody_step hasShard hs hstep]
    exact Custody.proper_apply hs.proper (sound_move hasShard hstep)
  nodup := nodup_step hasShard hs hstep

theorem keeps_start (ports : List Nat) (axlCfg : Dict Int Int) (x : Keeper) :
    (start ports axlCfg).keeps x = [] := by
  cases x <;> rfl

theorem sane_start (ports : List Nat) (axlCfg : Dict Int Int) : (start ports axlCfg).Sane := by
  have hnone : ∀ x q, q ∉ (start ports axlCfg).keeps x := fun x q hq => by
    rw [keeps_start] at hq
    exact List.not_mem_nil hq
  refine ⟨⟨fun x y q hx => absurd hx (hnone x q), fun x q hq => absurd hq (hnone x q),
    fun q hq => absurd hq List.not_mem_nil⟩, fun x => ?_⟩
  rw [keeps_start]
  exact List.nodup_nil

/-! ## What is lost -/

/-- A node is registered only where none of the processes that are registered for its
    port still runs. -/
def Clear (h : Hub) : HubEvent → Prop
  | .advance r _ => ∀ plan axl whisper, h.adding.get? r = some ⟨plan, .bothUp axl whisper⟩ →
      ∀ q ∈ h.keeps (.node plan.port), q ∉ h.running
  | _ => True

/-- A request that has not started both processes registers nothing. -/
theorem clear_of_stage {r : Nat} {plan : Plan} {stage : SpawnStage} {exc : Option String}
    (ha : h.adding.get? r = some ⟨plan, stage⟩)
    (hstage : ∀ axl whisper, stage ≠ .bothUp axl whisper) : h.Clear (.advance r exc) := by
  intro plan' axl whisper ha'
  rw [ha, Option.some.injEq, Adding.mk.injEq] at ha'
  exact absurd ha'.2 (hstage axl whisper)

theorem safe_iff_clear {e : HubEvent} (hstep : h.step hasShard e = some h') :
    h.custody.Safe (h.move e) ↔ h.Clear e := by
  cases act_of_step hasShard hstep with
  | refused r answer => exact Iff.rfl
  | planned r top hr hmax => exact Iff.rfl
  | configured r plan ha =>
      rw [move, ha]
      exact iff_of_true trivial (clear_of_stage ha (fun _ _ heq => by cases heq))
  | keyed r plan ha =>
      rw [move, ha]
      exact iff_of_true trivial (clear_of_stage ha (fun _ _ heq => by cases heq))
  | failed r plan stage exc answer ha hprocs =>
      rw [move, ha]
      cases stage with
      | axlUp axl => cases hprocs
      | bothUp axl whisper => cases hprocs
      | _ => exact iff_of_true trivial (clear_of_stage ha (fun _ _ heq => by cases heq))
  | axl r plan ha =>
      rw [move, ha]
      exact iff_of_true trivial (clear_of_stage ha (fun _ _ heq => by cases heq))
  | whisper r plan axl ha =>
      rw [move, ha]
      exact iff_of_true trivial (clear_of_stage ha (fun _ _ heq => by cases heq))
  | dropped r plan axl exc answer ha =>
      rw [move, ha]
      exact iff_of_true trivial (clear_of_stage ha (fun _ _ heq => by cases heq))
  | registered r plan axl whisper answer ha =>
      rw [move, ha]
      constructor
      · intro hsafe plan' axl' whisper' ha'
        rw [ha, Option.some.injEq, Adding.mk.injEq] at ha'
        rw [← ha'.1]
        exact hsafe
      · intro hclear
        exact hclear plan axl whisper ha
  | nothing r answer hmax =>
      rw [move, hmax]
      exact Iff.rfl
  | taken r port hr hmax =>
      rw [move, hmax]
      -- The removal is new and holds nothing.
      refine iff_of_true (fun q hq => ?_) trivial
      change q ∈ h.keeps (.removal r) at hq
      rw [keeps, crew, hr] at hq
      exact absurd hq List.not_mem_nil
  | told r port total proc procs hr =>
      rw [move, hr]
      exact Iff.rfl
  | removed r port total answer hr =>
      rw [move, hr]
      exact Iff.rfl
  | exited proc hp => exact Iff.rfl
  | polled => exact Iff.rfl
  | same state port todo htodo hsame => exact Iff.rfl
  | stored state port todo htodo hnew => exact Iff.rfl

/-- From where every process that runs is kept, an event loses none exactly if it is clear. -/
theorem kept_step_iff {e : HubEvent} (hs : h.Sane) (hkept : ∀ q ∈ h.running, ∃ x, q ∈ h.keeps x)
    (hstep : h.step hasShard e = some h') :
    (∀ q ∈ h'.running, ∃ x, q ∈ h'.keeps x) ↔ h.Clear e := by
  have hafter := Custody.kept_apply_iff hs.proper (sound_move hasShard hstep) hkept
  rw [← custody_step hasShard hs hstep] at hafter
  exact hafter.trans (safe_iff_clear hasShard hstep)

/-- Whatever the requests, the poller and the processes do, every process that runs can
    still be ended, by a request or through the node it is registered for, if and only if
    no node is registered in the place of one that still runs. -/
theorem processes_kept (ports : List Nat) (axlCfg : Dict Int Int) (es : List HubEvent) :
    Machine.Throughout (step hasShard) (fun h => ∀ q ∈ h.running, ∃ x, q ∈ h.keeps x)
        (start ports axlCfg) es ↔
      Machine.Along (step hasShard) Clear (start ports axlCfg) es := by
  refine Machine.throughout_iff_along_of_fair _ Sane _ (fun _ _ => True) _ ?_ ?_ _ es
    (sane_start ports axlCfg) (fun q hq => absurd hq List.not_mem_nil)
    (Machine.along_of_forall _ _ _ es (fun _ _ _ => trivial))
  · intro h e h' hs _ hstep
    exact sane_step hasShard hs hstep
  · intro h e h' hs hkept _ hstep
    exact kept_step_iff hasShard hs hkept hstep

/-- Two requests that read the same ports: the second node takes the place of the first,
    whose processes 0 and 1 go on without a keeper. -/
example : (Machine.run (step (fun _ => true)) (start [8888] Dict.empty)
      ([.read 0, .read 1] ++ List.replicate 5 (.advance 0 none) ++
        List.replicate 5 (.advance 1 none))).map
      (fun h => (h.running, h.dynamicProcs.entries, h.removing.keys ++ h.adding.keys)) =
    some ([0, 1, 2, 3], [(8889, (2, 3))], []) := by
  decide

end Hub

end WhisperNet
