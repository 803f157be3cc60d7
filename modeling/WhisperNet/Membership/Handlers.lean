import WhisperNet.Lib.Action
import WhisperNet.Membership.State

/-!
# Gossip Membership

The operations of `MembershipLayer` as actions: they read and change the
table, hand messages to the transport, and can raise. An exception leaves the
table as far as the handler got, which for a message with one bad field is a
peer that was added or refreshed but not revived.

Heartbeats and joins adopt the fields a peer advertises with the same three
lines for each field, so there is one `adopt` and each field is an instance of
it. Log lines appear only as `logKey`, because slicing a key that is not a
string raises.

A call reads the clock once. It draws fresh message ids and two shuffles from
its environment; a shuffle may depend on the message, which is general enough
because the two lists one message is sent to are disjoint.

## Main definitions

* `MemberEnv`: What a call reads.
* `Send`: A message for the transport.
* `broadcastHeartbeat`, `detectFailures`, `axlSync`, `broadcastJoin`: The
  periodic operations.
* `handleMessage`: The dispatch of a received message.
* `onHeartbeat`, `onNodeJoin`, `onSuspicion`: The handlers.
* `broadcast`, `Addressable`: A message to all peers, and what lets it through.
* `fanout`: The relay to at most three peers.
* `condemns`, `confirms`: The peer a suspicion, or a message, confirms dead.
-/

namespace WhisperNet

open PyVal (get getD)

/-- A message handed to the transport. -/
structure Send where
  dest : Key
  msg : Msg
  deriving DecidableEq

/-- What a call reads from its environment. -/
structure MemberEnv where
  now : ℚ
  /-- the fresh id of the message about, or to, a key -/
  uuid : Key → PyStr
  /-- `_tasks_held_fn()` -/
  tasksHeld : List PyVal
  /-- `random.shuffle` of the targets of a message -/
  shuffle : Msg → List Key → List Key
  shuffle_perm : ∀ msg ks, (shuffle msg ks).Perm ks

namespace MembershipLayer

abbrev Act (α : Type) := Action PyErr MembershipLayer Send α

open WhisperNet.Action

def deadReportsNeeded : Nat := 2

def gossipFanout : Nat := 3

def gossipHops : Int := 8

/-! ## Steps of a handler -/

/-- `transport.send`. The transport catches a failed request and logs the
    first characters of the key, so a key that is a number raises. A request without
    a key does not fail: it is answered, and reaches nobody. -/
def send (dest : Key) (msg : Msg) : Act Unit :=
  match dest with
  | .num _ => raise .typeError
  | _ => emit ⟨dest, msg⟩

/-- A message to every peer that is not dead, as an auction and a collection of shares
    send their requests. -/
def broadcast (msg : Msg) : Act Unit := do
  let s ← read
  each (fun k => send k msg) s.getAlivePeers

/-- Keys that can be sent to: none is a number. -/
def Addressable (ks : List Key) : Prop := ∀ k ∈ ks, ∀ q, k ≠ .num q

theorem each_send (msg : Msg) (ks : List Key) (s : MembershipLayer) :
    (Addressable ks → (each (fun k => send k msg) ks s).ret = .ok ()) ∧
      (¬ Addressable ks → (each (fun k => send k msg) ks s).ret = .error .typeError) := by
  induction ks with
  | nil => exact ⟨fun _ => rfl, fun h => (h (fun k hk => (List.not_mem_nil hk).elim)).elim⟩
  | cons k ks ih =>
      have hcons : Addressable (k :: ks) ↔ (∀ q, k ≠ .num q) ∧ Addressable ks :=
        List.forall_mem_cons
      rw [hcons]
      cases k with
      -- The first key that is a number ends the loop.
      | num q => exact ⟨fun h => (h.1 q rfl).elim, fun _ => rfl⟩
      | none =>
          have hrest : (each (fun k => send k msg) (.none :: ks) s).ret =
              (each (fun k => send k msg) ks s).ret := rfl
          have hfine : ∀ q, Key.none ≠ .num q := fun q hc => by cases hc
          rw [hrest, and_iff_right hfine]
          exact ih
      | str x =>
          have hrest : (each (fun k => send k msg) (.str x :: ks) s).ret =
              (each (fun k => send k msg) ks s).ret := rfl
          have hfine : ∀ q, Key.str x ≠ .num q := fun q hc => by cases hc
          rw [hrest, and_iff_right hfine]
          exact ih

/-- A broadcast returns if every peer that is not dead can be sent to. -/
theorem broadcast_ok {s : MembershipLayer} (msg : Msg) (h : Addressable s.getAlivePeers) :
    (broadcast msg s).ret = .ok () := (each_send msg s.getAlivePeers s).1 h

theorem broadcast_error {s : MembershipLayer} (msg : Msg) (h : ¬ Addressable s.getAlivePeers) :
    (broadcast msg s).ret = .error .typeError := (each_send msg s.getAlivePeers s).2 h

/-- A log line that slices a key. -/
def logKey (k : Key) : Act Unit :=
  match k with
  | .str _ => pure ()
  | _ => raise .typeError

def updatePeer (k : Key) (f : PeerInfo → PeerInfo) (s : MembershipLayer) : MembershipLayer :=
  match s.peers.get? k with
  | none => s
  | some p => { s with peers := s.peers.set k (f p) }

def setStatus (st : PeerStatus) (k : Key) : MembershipLayer → MembershipLayer :=
  updatePeer k (fun p => { p with status := st })

/-- `self._peers[key] = PeerInfo(peer_key=key)`. -/
def insertPeer (now : ℚ) (k : Key) (s : MembershipLayer) : MembershipLayer :=
  { s with peers := s.peers.set k { lastSeen := now } }

def popSuspicions (k : Key) (s : MembershipLayer) : MembershipLayer :=
  { s with suspicions := s.suspicions.erase k }

/-- `self._seen_ids.append(msg_id)`. -/
def markSeen (msgId : PyVal) (s : MembershipLayer) : MembershipLayer :=
  { s with seenIds := s.seenIds.append msgId }

/-- The topology snapshot of this round, which is the previous one of the next. -/
def connect (keys : List PyStr) (s : MembershipLayer) : MembershipLayer :=
  { s with prevAxlConnected := keys, axlConnected := keys }

/-- Add a key that is not in the table. -/
def discover (now : ℚ) (k : Key) : Act Unit := do
  let s ← read
  if (s.peers.get? k).isNone then
    modify (insertPeer now k)
    logKey k

/-- `_fanout`: directly connected peers first, shuffled within each group. -/
def fanout (env : MemberEnv) (msg : Msg) : Act Unit := do
  let s ← read
  let axl := s.axlConnected.map Key.str
  let axlAlive := s.getAlivePeers.filter (fun k => k ∈ axl)
  let otherAlive := s.getAlivePeers.filter (fun k => k ∉ axl)
  each (fun k => send k msg)
    ((env.shuffle msg axlAlive ++ env.shuffle msg otherAlive).take gossipFanout)

/-- `msg.get("hops", 0) - 1`, and the message with that if any hops remain. -/
def decHops (msg : Msg) : Except PyErr (Option Msg) :=
  match getD msg (lit "hops") (.int 0) with
  | .int h => .ok (if h - 1 > 0 then some (assign (lit "hops") (.int (h - 1)) msg) else none)
  | .float h => .ok (if h - 1 > 0 then some (assign (lit "hops") (.float (h - 1)) msg) else none)
  | .bool _ => .ok none
  | _ => .error .typeError

/-- The relay at the end of a handler. -/
def forward (env : MemberEnv) (msg : Msg) : Act Unit := do
  match ← attempt (decHops msg) with
  | some relayed => fanout env relayed
  | none => pure ()

/-- `_gossip_suspicion`. -/
def gossipSuspicion (env : MemberEnv) (suspect : Key) : Act Unit := do
  let s ← read
  fanout env
    [(lit "type", .str (lit "suspicion")),
     (lit "msg_id", .str (env.uuid suspect)),
     (lit "from", .str s.ourKey),
     (lit "suspect", suspect.toVal),
     (lit "timestamp", .float env.now),
     (lit "hops", .int gossipHops)]

/-! ## Discovery -/

/-- `add_peer`. -/
def addPeer (now : ℚ) (peerKey : PyStr) : Act Unit := do
  let s ← read
  if peerKey ≠ s.ourKey then discover now (.str peerKey)

/-- `if self.our_enc_pubkey: msg["enc_pubkey"] = ...`. -/
def withEncPubkey (s : MembershipLayer) (msg : Msg) : Msg :=
  match s.ourEncPubkey with
  | none => msg
  | some k => if k = [] then msg else assign (lit "enc_pubkey") (.str k) msg

/-- `_send_join_to`. -/
def sendJoinTo (env : MemberEnv) (hops : Int) (peerKey : Key) : Act Unit := do
  let s ← read
  send peerKey (s.withEncPubkey
    [(lit "type", .str (lit "node_join")),
     (lit "msg_id", .str (env.uuid peerKey)),
     (lit "from", .str s.ourKey),
     (lit "shard_id", .int s.ourShardId),
     (lit "hops", .int hops),
     (lit "capabilities", .list (s.ourCapabilities.map PyVal.str)),
     (lit "price_axl", .float s.ourPriceAxl)])

/-- `broadcast_join`. -/
def broadcastJoin (env : MemberEnv) : Act Unit := do
  let s ← read
  each (sendJoinTo env gossipHops) (s.axlConnected.map Key.str)

/-- Whether a peer is alive but has been silent for longer than the limit. -/
def silent (s : MembershipLayer) (now limit : ℚ) (k : Key) : Bool :=
  match s.peers.get? k with
  | none => false
  | some p => decide (p.status = .alive) && decide (now - p.lastSeen > limit)

/-- Suspect the silent peers among some keys, and return them. -/
def suspectSilent (now limit : ℚ) : List Key → Act (List Key)
  | [] => pure []
  | k :: ks => do
    let s ← read
    if s.silent now limit k then
      modify (setStatus .suspected k)
      logKey k
      let rest ← suspectSilent now limit ks
      pure (k :: rest)
    else suspectSilent now limit ks

/-- The connected keys that are new to the table. -/
def unknown (s : MembershipLayer) (connectedKeys : List PyStr) : List Key :=
  (connectedKeys.dedup.filter (fun k => k ≠ s.ourKey ∧ s.peers.get? (.str k) = none)).map Key.str

/-- `axl_sync`. -/
def axlSync (env : MemberEnv) (connectedKeys : List PyStr) : Act Unit := do
  let s ← read
  modify (connect connectedKeys)
  let newlyDiscovered := s.unknown connectedKeys
  each (discover env.now) newlyDiscovered
  let dropped := s.prevAxlConnected.dedup.filter (fun k => k ∉ connectedKeys)
  let newlySuspected ← suspectSilent env.now (s.suspectAfter / 2) (dropped.map Key.str)
  each (sendJoinTo env 1) newlyDiscovered
  each (gossipSuspicion env) newlySuspected

/-! ## Periodic operations -/

/-- `_broadcast_heartbeat`. -/
def broadcastHeartbeat (env : MemberEnv) : Act Unit := do
  let s ← read
  let known := s.keysWhere (fun p => p.status = .alive)
  let msg := s.withEncPubkey
    [(lit "type", .str (lit "heartbeat")),
     (lit "msg_id", .str (env.uuid (.str s.ourKey))),
     (lit "from", .str s.ourKey),
     (lit "timestamp", .float env.now),
     (lit "shard_id", .int s.ourShardId),
     (lit "tasks_held", .list env.tasksHeld),
     (lit "known_peers", .list (known.map Key.toVal)),
     (lit "hops", .int gossipHops),
     (lit "lease_duration", .float s.ourLeaseDuration),
     (lit "capabilities", .list (s.ourCapabilities.map PyVal.str)),
     (lit "price_axl", .float s.ourPriceAxl)]
  each (fun k => send k msg) s.getAlivePeers

/-- One round of the failure detector. -/
def detectFailures (env : MemberEnv) : Act Unit := do
  let s ← read
  let suspectedNow ← suspectSilent env.now s.suspectAfter s.peers.keys
  each (gossipSuspicion env) suspectedNow

/-! ## Received messages -/

/-- Store an advertised field of a peer: if the message gives it, convert it
    and assign it. -/
def adopt {α : Type} (k : Key) (v : PyVal) (given : Bool) (convert : PyVal → Except PyErr α)
    (store : α → PeerInfo → PeerInfo) : Act Unit :=
  if given then do
    let a ← attempt (convert v)
    modify (updatePeer k (store a))
  else pure ()

def adoptShardId (k : Key) (msg : Msg) : Act Unit :=
  let v := get msg (lit "shard_id")
  adopt k v (v ≠ .none) pyInt (fun n p => { p with shardId := some n })

def adoptEncPubkey (k : Key) (msg : Msg) : Act Unit :=
  let v := get msg (lit "enc_pubkey")
  adopt k v v.truthy Except.ok (fun e p => { p with encPubkey := e })

def adoptLeaseDuration (k : Key) (msg : Msg) : Act Unit :=
  let v := get msg (lit "lease_duration")
  adopt k v v.truthy pyFloat (fun d p => { p with reportedLeaseDuration := some d })

def adoptCapabilities (k : Key) (msg : Msg) : Act Unit :=
  let v := get msg (lit "capabilities")
  adopt k v (v ≠ .none) pyList (fun cs p => { p with capabilities := cs })

def adoptPriceAxl (k : Key) (msg : Msg) : Act Unit :=
  let v := get msg (lit "price_axl")
  adopt k v (v ≠ .none) pyFloat (fun q p => { p with priceAxl := q })

/-- A peer heard from is alive again, and the reports against it are dropped. -/
def revive (k : Key) : Act Unit := do
  let s ← read
  match s.peers.get? k with
  | none => pure ()
  | some p =>
    if p.status ≠ .alive then
      modify (fun s => popSuspicions k (setStatus .alive k s))
      logKey k

def touch (now : ℚ) (k : Key) : MembershipLayer → MembershipLayer :=
  updatePeer k (fun p => { p with lastSeen := now })

/-- `_on_node_join`: the peer is revived before its fields are read. -/
def onNodeJoin (env : MemberEnv) (msg : Msg) : Act Unit := do
  let sender := get msg (lit "from")
  let s ← read
  if sender.truthy && !pyEq sender (.str s.ourKey) then
    let k ← attempt (hashKey sender)
    discover env.now k
    modify (touch env.now k)
    revive k
    adoptShardId k msg
    adoptEncPubkey k msg
    adoptCapabilities k msg
    adoptPriceAxl k msg
    forward env msg

/-- One key of a heartbeat's `known_peers`. -/
def absorb (now : ℚ) (p : PyVal) : Act Unit := do
  let k ← attempt (hashKey p)
  let s ← read
  if k ≠ .str s.ourKey then discover now k

/-- `_on_heartbeat`: the peer is revived after its fields are read. -/
def onHeartbeat (env : MemberEnv) (msg : Msg) : Act Unit := do
  let sender := get msg (lit "from")
  let s ← read
  if sender.truthy && !pyEq sender (.str s.ourKey) then
    let k ← attempt (hashKey sender)
    discover env.now k
    modify (touch env.now k)
    modify (updatePeer k (fun p => { p with
      tasksHeld := getD msg (lit "tasks_held") (.list []) }))
    adoptShardId k msg
    adoptEncPubkey k msg
    adoptLeaseDuration k msg
    adoptCapabilities k msg
    adoptPriceAxl k msg
    revive k
    let known ← attempt (pyList (getD msg (lit "known_peers") (.list [])))
    each (absorb env.now) known
    forward env msg

/-- `peer and peer.last_seen > sus_ts`. -/
def stale (s : MembershipLayer) (k : Key) (msg : Msg) : Except PyErr Bool :=
  match s.peers.get? k with
  | none => .ok false
  | some p => PyVal.gt (.float p.lastSeen) (getD msg (lit "timestamp") (.int 0))

/-- `self._suspicions.setdefault(suspect, set())`. -/
def openReports (k : Key) (s : MembershipLayer) : MembershipLayer :=
  { s with suspicions := s.suspicions.set k ((s.suspicions.get? k).getD ∅) }

/-- `reporters.add(reporter)`. -/
def addReport (k reporter : Key) (s : MembershipLayer) : MembershipLayer :=
  { s with suspicions := s.suspicions.set k (insert reporter ((s.suspicions.get? k).getD ∅)) }

/-- Whether a known peer that is not dead has enough reports against it. -/
def condemned (s : MembershipLayer) (k : Key) : Bool :=
  match s.peers.get? k with
  | none => false
  | some p => decide (p.status ≠ .dead)
      && decide (((s.suspicions.get? k).getD ∅).card ≥ deadReportsNeeded)

/-- `_on_suspicion`. -/
def onSuspicion (env : MemberEnv) (fromPeer : PyVal) (msg : Msg) : Act Unit := do
  let suspect := get msg (lit "suspect")
  let reporter := getD msg (lit "from") fromPeer
  let s ← read
  if suspect.truthy && !pyEq suspect (.str s.ourKey) then
    let k ← attempt (hashKey suspect)
    if ← attempt (s.stale k msg) then pure ()
    else do
      modify (openReports k)
      let r ← attempt (hashKey reporter)
      modify (addReport k r)
      let s ← read
      if s.condemned k then
        modify (setStatus .dead k)
        logKey k
      forward env msg

/-- The peer that a suspicion condemns: one whose reports suffice once this
    one is counted, unless the report is stale. -/
def condemns (s : MembershipLayer) (fromPeer : PyVal) (msg : Msg) : Option Key :=
  let suspect := get msg (lit "suspect")
  if suspect.truthy && !pyEq suspect (.str s.ourKey) then
    match hashKey suspect, hashKey (getD msg (lit "from") fromPeer) with
    | .ok k, .ok r => match s.stale k msg with
      | .ok false => if (addReport k r (openReports k s)).condemned k then some k else none
      | _ => none
    | _, _ => none
  else none

/-- Whether `handle_message` dispatches a message of this type. -/
def dispatches (s : MembershipLayer) (mtype : PyStr) (msg : Msg) : Bool :=
  (get msg (lit "msg_id")).truthy && !pyIn (get msg (lit "msg_id")) s.seenIds.items
    && pyEq (get msg (lit "type")) (.str mtype)

/-- The peer that a received message confirms dead. -/
def confirms (s : MembershipLayer) (fromPeer : PyVal) (msg : Msg) : Option Key :=
  if s.dispatches (lit "suspicion") msg then s.condemns fromPeer msg else none

/-- `handle_message`. -/
def handleMessage (env : MemberEnv) (fromPeer : PyVal) (msg : Msg) : Act Unit := do
  let msgId := get msg (lit "msg_id")
  let s ← read
  if msgId.truthy && !pyIn msgId s.seenIds.items then
    modify (markSeen msgId)
    let mtype := get msg (lit "type")
    if pyEq mtype (.str (lit "heartbeat")) then onHeartbeat env msg
    else if pyEq mtype (.str (lit "suspicion")) then onSuspicion env fromPeer msg
    else if pyEq mtype (.str (lit "node_join")) then onNodeJoin env msg

end MembershipLayer

end WhisperNet
