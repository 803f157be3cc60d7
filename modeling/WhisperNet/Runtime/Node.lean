import WhisperNet.Cluster.Mesh
import WhisperNet.Membership.Outreach
import WhisperNet.Runtime.Shares
import WhisperNet.Runtime.Threads

/-!
# A Node and Its Receive Loop

A `WhisperNode` with everything its receive loop reads and writes, and the
dispatch of a received message to one of ten handlers. The loop catches every
exception, so a handler that raises leaves what it had assigned and sent.

The transport takes one message at a time, and a relay of the ledger goes out
through the same choice of targets as a relay of the membership layer, with the
peers that are not dead and the connected ones among them first.

A submission takes its id and payload from the message as they are, so
`submitRaw` is the submission for values of any type.

## Main definitions

* `WhisperNode`: The state of a node.
* `NodeEnv`: What the handling of a message reads from outside.
* `transmit`: The messages that the outputs of a ledger operation become.
* `submitRaw`: A submission with values of any type.
* `WhisperNode.receive`: The dispatch of a received message.
* `NodeEvent`, `WhisperNode.step`: What can happen at a node.

* `LedgerStep`: What an event does to the ledger.

## Theorems

* `submitRaw_str`: A submission with strings is the one of the ledger.
* `receive_update`, `receive_submit`, `receive_award`, `receive_other`: What
  each type of message does to the ledger.
* `step_ledger`: What each event does to it.
-/

namespace WhisperNet

open MembershipLayer TaskLedger
open PyVal (get getD)

/-- A bid as an auction stores it. -/
structure Bid where
  sender : PyVal
  priceAxl : PyFloat
  capabilities : PyVal
  shardId : PyVal
  deriving DecidableEq

/-- `_bid_collections[task_id]`; `event` says that enough bids are there. -/
structure Auction where
  bids : List Bid := []
  event : Bool := false
  deriving DecidableEq

structure WhisperNode where
  membership : MembershipLayer
  ledger : TaskLedger
  runtime : AgentRuntime
  cipher : PayloadCipher := ⟨none⟩
  bidCollections : Dict Key Auction := Dict.empty
  shareCollections : Dict Key Collection := Dict.empty
  /-- buffered task_result notifications -/
  taskResults : List Msg := []

/-- What the handling of a message reads from outside: the clock and the
    shuffles, one fresh id, and the randomness of the ciphers. -/
structure NodeEnv where
  member : MemberEnv
  uuid : PyStr
  thresholdRand : ThresholdCipher.Rand
  payloadRand : PayloadCipher.Rand

/-- An environment at time zero, with the same id for every message. -/
def NodeEnv.plain : NodeEnv where
  member := MemberEnv.plain
  uuid := lit "id"
  thresholdRand := SubmitEnv.plain.thresholdRand
  payloadRand := SubmitEnv.plain.payloadRand

/-! ## Sending -/

/-- The messages that the outputs of a ledger operation become. One that cannot
    be made or sent raises, and the ones after it are not sent. -/
def transmit (P : Primitives) (env : NodeEnv) (M : MembershipLayer) (L : TaskLedger) :
    List Output → List Send
  | [] => []
  | .gossip task :: rest =>
    match L.gossipTask P env.uuid task with
    | .error _ => []
    | .ok msg =>
      let sent := fanout env.member msg M
      match sent.ret with
      | .ok _ => sent.out ++ transmit P env M L rest
      | .error _ => sent.out
  | .relay msg :: rest =>
    let sent := fanout env.member msg M
    match sent.ret with
    | .ok _ => sent.out ++ transmit P env M L rest
    | .error _ => sent.out
  | .taskResult dest notification :: rest =>
    match hashKey dest with
    | .error _ => transmit P env M L rest
    | .ok k =>
      let sent := MembershipLayer.send k notification M
      match sent.ret with
      | .ok _ => sent.out ++ transmit P env M L rest
      | .error _ => sent.out
  | .localResult _ :: rest => transmit P env M L rest

/-! ## Submissions from a peer -/

/-- The record a submission of any values creates: a payload that is not a
    string cannot be encrypted. -/
def TaskLedger.submittedRaw (L : TaskLedger) (P : Primitives) (env : SubmitEnv)
    (taskId payload : PyVal) (shardId : Int) (submitterKey : PyVal) : Task :=
  match payload with
  | .str text => { L.submittedTask P env [] text shardId submitterKey with taskId := taskId }
  | other =>
    { taskId := taskId
      payload := other
      shardId := .int shardId
      status := .pending
      leasedBy := .none
      leaseExpires := .float 0
      result := .none
      createdAt := .float env.now
      version := .int 1
      submitterKey := submitterKey
      encrypted := .bool false
      thresholdT := .int 0 }

/-- `submit_task` with an id and a payload of any type. The last log line slices
    the id, after the record is stored and gossiped. -/
def TaskLedger.submitRaw (L : TaskLedger) (P : Primitives) (env : SubmitEnv)
    (taskId payload : PyVal) (shardId : Int) (submitterKey : PyVal) : Outcome Task :=
  match hashKey taskId with
  | .error e => { ret := .error e, ledger := L }
  | .ok k =>
    let task := L.submittedRaw P env taskId payload shardId submitterKey
    { ret := if taskId.sliceable then .ok task else .error .typeError
      ledger := { L with tasks := L.tasks.set k task }.persist
      out := [.gossip task] }

theorem submitRaw_str (L : TaskLedger) (P : Primitives) (env : SubmitEnv)
    (taskId payload : PyStr) (shardId : Int) (submitterKey : PyVal) :
    L.submitRaw P env (.str taskId) (.str payload) shardId submitterKey =
      L.submitTask P env taskId payload shardId submitterKey := rfl

/-- The fields of a `task_submit`: its id, payload, shard and submitter. -/
def readSubmission (msg : Msg) : Except PyErr (PyVal × PyVal × Int × PyVal) :=
  match lookup (lit "task_id") msg, lookup (lit "payload") msg, lookup (lit "shard_id") msg with
  | some taskId, some payload, some shard =>
    let sender := get msg (lit "from")
    (pyInt shard).map (fun n => (taskId, payload, n, if sender.truthy then sender else .none))
  | _, _, _ => .error .keyError

namespace WhisperNode

variable (P : Primitives) (s : WhisperNode)

/-- What a submission reads from the membership layer. -/
def submitEnv (env : NodeEnv) (shardId : Int) : Except PyErr SubmitEnv :=
  let params := if s.ledger.threshold.enabled then getThresholdParams P s.cipher s.membership
    else .ok none
  params.map (fun p =>
    { now := env.member.now
      thresholdParams := p
      encPubkey := getEncPubkeyForShard P s.cipher s.runtime.shardId s.membership (.int shardId)
      thresholdRand := env.thresholdRand
      payloadRand := env.payloadRand })

/-- The submission a `task_submit` makes, unless it raises before it changes
    anything. -/
def submission (env : NodeEnv) (msg : Msg) : Option (Outcome Task) :=
  match readSubmission msg with
  | .error _ => none
  | .ok (taskId, payload, shardId, submitterKey) =>
    match s.submitEnv P env shardId with
    | .error _ => none
    | .ok submitEnv => some (s.ledger.submitRaw P submitEnv taskId payload shardId submitterKey)

/-! ## Handlers -/

/-- `_handle_p2p_task_submit`. The auction it starts runs in a thread of its own. -/
def handleP2pTaskSubmit (env : NodeEnv) (msg : Msg) : WhisperNode × List Send :=
  match s.submission P env msg with
  | none => (s, [])
  | some o => ({ s with ledger := o.ledger }, transmit P env s.membership o.ledger o.out)

/-- `_handle_task_bid_request`. -/
def handleTaskBidRequest (env : NodeEnv) (msg : Msg) : WhisperNode × List Send :=
  let taskId := get msg (lit "task_id")
  let requester := get msg (lit "from")
  if taskId.truthy = false ∨ requester.truthy = false
      ∨ pyEq requester (.str s.membership.ourKey) = true then (s, [])
  else match hashKey requester with
    | .error _ => (s, [])
    | .ok dest => (s, (MembershipLayer.send dest
        [(lit "type", .str (lit "task_bid")),
         (lit "msg_id", .str env.uuid),
         (lit "from", .str s.membership.ourKey),
         (lit "task_id", taskId),
         (lit "shard_id", .int s.runtime.shardId),
         (lit "price_axl", .float s.membership.ourPriceAxl),
         (lit "capabilities", .list (s.membership.ourCapabilities.map PyVal.str))]
        s.membership).out)

/-- `_handle_task_bid`. -/
def handleTaskBid (msg : Msg) : WhisperNode :=
  let taskId := get msg (lit "task_id")
  if taskId.truthy = false then s
  else match hashKey taskId, pyFloat (getD msg (lit "price_axl") (.float (1 / 100))) with
    | .ok k, .ok price =>
      match s.bidCollections.get? k with
      | none => s
      | some col =>
        let bids := col.bids ++
          [{ sender := get msg (lit "from")
             priceAxl := price
             capabilities := getD msg (lit "capabilities") (.list [])
             shardId := get msg (lit "shard_id") }]
        { s with
          bidCollections := s.bidCollections.set k
            { bids := bids, event := col.event || decide (3 ≤ bids.length) } }
    | _, _ => s

/-- `_handle_task_award`. The log line slices the id before the claim, and an id
    that can be sliced but is not a string is no key. -/
def handleTaskAward (env : NodeEnv) (msg : Msg) : WhisperNode × List Send :=
  match get msg (lit "task_id") with
  | .str taskId =>
    if taskId = [] ∨ get msg (lit "winner") ≠ .str s.membership.ourKey then (s, [])
    else
      let o := s.ledger.claimTask taskId env.member.now
      ({ s with ledger := o.ledger }, transmit P env s.membership o.ledger o.out)
  | _ => (s, [])

/-- The `task_result` branch: two slices, then `_buffer_result`. -/
def handleTaskResult (msg : Msg) : WhisperNode :=
  let result := get msg (lit "result")
  if (getD msg (lit "task_id") (.str (lit "?"))).sliceable && (!result.truthy || result.sliceable)
  then { s with taskResults := s.taskResults ++ [msg] }
  else s

/-- `_handle_share_request`. -/
def answerShareRequest (env : NodeEnv) (msg : Msg) : List Send :=
  match handleShareRequest P s.cipher s.membership env.uuid s.ledger.tasks.values msg with
  | .ok (some answer) => [answer]
  | _ => []

/-- Whether the loop hands a message to the membership layer. -/
def isMembership (msg : Msg) : Bool :=
  let mtype := get msg (lit "type")
  pyEq mtype (.str (lit "heartbeat")) || pyEq mtype (.str (lit "suspicion"))
    || pyEq mtype (.str (lit "node_join"))

/-- The four types of messages that are deduplicated and relayed. -/
def isGossip (msg : Msg) : Bool :=
  isMembership msg || pyEq (get msg (lit "type")) (.str (lit "ledger_update"))

/-- The body of the receive loop. -/
def receive (env : NodeEnv) (fromPeer : PyVal) (msg : Msg) : WhisperNode × List Send :=
  let mtype := get msg (lit "type")
  if isMembership msg then
    let e := handleMessage env.member fromPeer msg s.membership
    ({ s with membership := e.state }, e.out)
  else if pyEq mtype (.str (lit "ledger_update")) then
    let o := s.ledger.handleLedgerUpdate P msg
    ({ s with ledger := o.ledger }, transmit P env s.membership o.ledger o.out)
  else if pyEq mtype (.str (lit "task_submit")) then s.handleP2pTaskSubmit P env msg
  else if pyEq mtype (.str (lit "task_bid_request")) then s.handleTaskBidRequest env msg
  else if pyEq mtype (.str (lit "task_bid")) then (s.handleTaskBid msg, [])
  else if pyEq mtype (.str (lit "task_award")) then s.handleTaskAward P env msg
  else if pyEq mtype (.str (lit "task_result")) then (s.handleTaskResult msg, [])
  else if pyEq mtype (.str (lit "share_request")) then (s, s.answerShareRequest P env msg)
  else if pyEq mtype (.str (lit "share_response")) then
    ({ s with shareCollections := handleShareResponse P s.shareCollections msg }, [])
  else (s, [])

/-! ## Everything else a node does -/

/-- A round of `_lease_convergence_loop`: both copies of the duration change. -/
def converge : WhisperNode :=
  match s.membership.getConsensusLeaseDuration with
  | .num consensus =>
    if farFrom s.ledger.leaseDuration consensus then
      { s with
        ledger := s.ledger.converge consensus
        membership := { s.membership with ourLeaseDuration := consensus } }
    else s
  -- NaN is not far from anything.
  | .nan => s

/-- A round writes a consensus that is far from the duration, or nothing. -/
theorem converge_cases : s.converge = s ∨ ∃ consensus,
    s.membership.getConsensusLeaseDuration = .num consensus ∧
      farFrom s.ledger.leaseDuration consensus = true ∧
      s.converge = { s with
        ledger := s.ledger.converge consensus
        membership := { s.membership with ourLeaseDuration := consensus } } := by
  unfold converge
  split
  · rename_i consensus hconsensus
    split
    · rename_i hfar
      exact Or.inr ⟨consensus, hconsensus, hfar, rfl⟩
    · exact Or.inl rfl
  · exact Or.inl rfl

/-- A new process with the same configuration, from the ledger file of the old
    one, after its `recover_identity`. -/
def restart (now : ℚ) : WhisperNode :=
  { membership := s.membership.fresh
    ledger := (s.ledger.load.recoverIdentity now).ledger
    runtime := s.runtime
    cipher := s.cipher }

end WhisperNode

/-- What can happen at a node: a message arrives, another thread takes a step on
    one of the tables, or the process is restarted. -/
inductive NodeEvent
  | receive (env : NodeEnv) (fromPeer : PyVal) (msg : Msg)
  /-- an operation of the membership layer -/
  | beat (b : Beat)
  /-- an operation of the ledger, by whichever thread -/
  | call (c : Call)
  | converge
  | openAuction (taskId : PyStr)
  | closeAuction (taskId : PyStr)
  | openShares (k : Key) (needed : PyVal) (own : PyVal × Bytes)
  | closeShares (k : Key)
  | drainResults
  | restart (now : ℚ)

namespace WhisperNode

/-- The state after an event. Every event is possible in every state. -/
def step (P : Primitives) (s : WhisperNode) : NodeEvent → Option WhisperNode
  | .receive env fromPeer msg => some (s.receive P env fromPeer msg).1
  | .beat b => some { s with membership := (b.act s.membership).state }
  | .call c => some { s with ledger := (c.run P s.ledger).1 }
  | .converge => some s.converge
  | .openAuction taskId => some { s with
      bidCollections := s.bidCollections.set (.str taskId) {} }
  | .closeAuction taskId => some { s with
      bidCollections := s.bidCollections.erase (.str taskId) }
  | .openShares k needed own => some { s with
      shareCollections := s.shareCollections.set k { needed := needed, shares := [own] } }
  | .closeShares k => some { s with shareCollections := s.shareCollections.erase k }
  | .drainResults => some { s with taskResults := [] }
  | .restart now => some (s.restart now)

end WhisperNode

/-! ## The types that reach the ledger -/

open WhisperNode

section Dispatch

variable (P : Primitives) (s : WhisperNode) (env : NodeEnv) (fromPeer : PyVal) {msg : Msg}

/-- A message of the membership protocol is handed to its layer. -/
theorem receive_member (h : isMembership msg = true) : s.receive P env fromPeer msg =
    ({ s with membership := (handleMessage env.member fromPeer msg s.membership).state },
      (handleMessage env.member fromPeer msg s.membership).out) := by
  unfold receive
  rw [if_pos h]

theorem receive_update (h : get msg (lit "type") = .str (lit "ledger_update")) :
    (s.receive P env fromPeer msg).1.ledger = (s.ledger.handleLedgerUpdate P msg).ledger := by
  unfold receive isMembership
  simp only [h]
  rw [if_neg (by decide), if_pos (by decide)]

theorem receive_submit (h : get msg (lit "type") = .str (lit "task_submit")) :
    s.receive P env fromPeer msg = s.handleP2pTaskSubmit P env msg := by
  unfold receive isMembership
  simp only [h]
  rw [if_neg (by decide), if_neg (by decide), if_pos (by decide)]

theorem receive_award (h : get msg (lit "type") = .str (lit "task_award")) :
    s.receive P env fromPeer msg = s.handleTaskAward P env msg := by
  unfold receive isMembership
  simp only [h]
  rw [if_neg (by decide), if_neg (by decide), if_neg (by decide), if_neg (by decide),
    if_neg (by decide), if_pos (by decide)]

theorem bidRequest_frame : (s.handleTaskBidRequest env msg).1.ledger = s.ledger ∧
    (s.handleTaskBidRequest env msg).1.membership = s.membership := by
  unfold handleTaskBidRequest
  dsimp only
  split
  · exact ⟨rfl, rfl⟩
  · split
    · exact ⟨rfl, rfl⟩
    · exact ⟨rfl, rfl⟩

theorem bid_frame : (s.handleTaskBid msg).ledger = s.ledger ∧
    (s.handleTaskBid msg).membership = s.membership := by
  unfold handleTaskBid
  dsimp only
  split
  · exact ⟨rfl, rfl⟩
  · split
    · split
      · exact ⟨rfl, rfl⟩
      · exact ⟨rfl, rfl⟩
    · exact ⟨rfl, rfl⟩

theorem result_frame : (s.handleTaskResult msg).ledger = s.ledger ∧
    (s.handleTaskResult msg).membership = s.membership := by
  unfold handleTaskResult
  dsimp only
  split
  · exact ⟨rfl, rfl⟩
  · exact ⟨rfl, rfl⟩

/-- Every other type leaves the ledger alone. -/
theorem receive_other (hupdate : get msg (lit "type") ≠ .str (lit "ledger_update"))
    (hsubmit : get msg (lit "type") ≠ .str (lit "task_submit"))
    (haward : get msg (lit "type") ≠ .str (lit "task_award")) :
    (s.receive P env fromPeer msg).1.ledger = s.ledger := by
  have hne : ∀ {name}, get msg (lit "type") ≠ .str name →
      ¬ pyEq (get msg (lit "type")) (.str name) = true := fun h hc => h ((pyEq_str _ _).mp hc)
  unfold receive
  simp only [if_neg (hne hupdate), if_neg (hne hsubmit), if_neg (hne haward)]
  split
  · rfl
  · split
    · exact (bidRequest_frame s env).1
    · split
      · exact (bid_frame s).1
      · split
        · exact (result_frame s).1
        · split
          · rfl
          · split
            · rfl
            · rfl

end Dispatch

/-- What an event does to the ledger of its node. -/
inductive LedgerStep (P : Primitives) (L : TaskLedger) (e : NodeEvent) (L' : TaskLedger) : Prop
  | same (h : L' = L)
  | update (env : NodeEnv) (fromPeer : PyVal) (msg : Msg) (hevent : e = .receive env fromPeer msg)
      (htype : get msg (lit "type") = .str (lit "ledger_update"))
      (h : L' = (L.handleLedgerUpdate P msg).ledger)
  | submit (env : SubmitEnv) (taskId payload : PyVal) (shardId : Int) (submitterKey : PyVal)
      (h : L' = (L.submitRaw P env taskId payload shardId submitterKey).ledger)
  | call (c : Call) (h : L' = (c.run P L).1)
  | converge (consensus : ℚ) (hevent : e = .converge) (h : L' = L.converge consensus)
  | restart (now : ℚ) (hevent : e = .restart now) (h : L' = (L.load.recoverIdentity now).ledger)

theorem step_ledger {P : Primitives} {s s' : WhisperNode} {e : NodeEvent}
    (h : s.step P e = some s') : LedgerStep P s.ledger e s'.ledger := by
  cases e with
  | receive env fromPeer msg =>
      rw [← Option.some.inj h]
      -- Three types of message write the ledger: updates, submissions and awards.
      by_cases hupdate : get msg (lit "type") = .str (lit "ledger_update")
      · exact .update env fromPeer msg rfl hupdate (receive_update P s env fromPeer hupdate)
      · by_cases hsubmit : get msg (lit "type") = .str (lit "task_submit")
        · rw [receive_submit P s env fromPeer hsubmit]
          unfold handleP2pTaskSubmit submission
          cases readSubmission msg with
          | error e => exact .same rfl
          | ok fields =>
              dsimp only
              cases s.submitEnv P env fields.2.2.1 with
              | error e => exact .same rfl
              | ok submitEnv => exact .submit submitEnv _ _ _ _ rfl
        · by_cases haward : get msg (lit "type") = .str (lit "task_award")
          · rw [receive_award P s env fromPeer haward]
            unfold handleTaskAward
            split
            · split
              · exact .same rfl
              · exact .call (.claimTask _ env.member.now) rfl
            · exact .same rfl
          · exact .same (receive_other P s env fromPeer hupdate hsubmit haward)
  | beat b =>
      rw [← Option.some.inj h]
      exact .same rfl
  | call c =>
      rw [← Option.some.inj h]
      exact .call c rfl
  -- A tick that adopts no other duration writes nothing.
  | converge =>
      rw [← Option.some.inj h]
      rcases s.converge_cases with hsame | ⟨consensus, _, _, hadopts⟩
      · rw [hsame]
        exact .same rfl
      · rw [hadopts]
        exact .converge consensus rfl rfl
  -- The jobs of the node itself leave its ledger alone.
  | openAuction taskId =>
      rw [← Option.some.inj h]
      exact .same rfl
  | closeAuction taskId =>
      rw [← Option.some.inj h]
      exact .same rfl
  | openShares k needed own =>
      rw [← Option.some.inj h]
      exact .same rfl
  | closeShares k =>
      rw [← Option.some.inj h]
      exact .same rfl
  | drainResults =>
      rw [← Option.some.inj h]
      exact .same rfl
  | restart now =>
      rw [← Option.some.inj h]
      exact .restart now rfl rfl

end WhisperNet
