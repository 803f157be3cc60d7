import WhisperNet.Membership.Outreach
import WhisperNet.Membership.Suspicion

/-!
# Exceptions of a Handler, Step by Step

The handlers of heartbeats and joins enter the sender, store the fields it
advertises, and end with a list of peers or with a relay. This module says for
each of these steps when it raises and what it leaves then, as a rule for the
condition on the state an exception leaves.

Once the record of a known peer differs from the one before the call, no later
step restores it (`onError_of_differs`), so from there on the question is only
whether something raises.

The keys and the statuses a relay chooses from are worked out on the roll, the
list of keys and statuses of a table.

## Main definitions

* `Field`, `advertised`, `Readable`: The fields of a message, in their order.
* `roll`, `enroll`: The keys and statuses of a table, and a peer that is named.
* `RelaysOk`: The relay of a message raises no exception.
* `Loggable`, `Familiar`, `NamesNoOne`: The items of a list of peers.
* `SameTables`: The peers and the reports of two tables are the same.
* `takeFields`: Store fields in order, then go on.
* `absorbKnown`: The end of a heartbeat.
* `Heard`: A table whose roll has the sender as alive in addition.

## Theorems

* `onError_takeFields`: What the fields of a message leave.
* `forward_onError`: What a relay leaves.
* `absorbKnown_onError`, `absorbKnown_same`, `absorbKnown_enters`: What the
  list of a heartbeat leaves.
* `onError_of_differs`: Once a record differs, only returning is left.
* `onError_discover_new`, `onError_revive_other`: The steps that enter the
  sender.
* `onHeartbeat_run`, `onNodeJoin_run`: The handlers as sequences of these steps.
-/

namespace WhisperNet

open MembershipLayer WhisperNet.Action
open PyVal (get getD)

namespace MembershipLayer

/-! ## The fields of a message -/

/-- What a field of a message does to the record of its sender, or what its
    conversion raises. -/
abbrev Field := Except PyErr (PeerInfo → PeerInfo)

def field {α : Type} (v : PyVal) (given : Bool) (convert : PyVal → Except PyErr α)
    (store : α → PeerInfo → PeerInfo) : Field :=
  if given then (convert v).map store else .ok id

def shardField (msg : Msg) : Field :=
  let v := get msg (lit "shard_id")
  field v (v ≠ .none) pyInt (fun n p => { p with shardId := some n })

def encField (msg : Msg) : Field :=
  let v := get msg (lit "enc_pubkey")
  field v v.truthy Except.ok (fun e p => { p with encPubkey := e })

def leaseField (msg : Msg) : Field :=
  let v := get msg (lit "lease_duration")
  field v v.truthy pyFloat (fun d p => { p with reportedLeaseDuration := some d })

def capabilitiesField (msg : Msg) : Field :=
  let v := get msg (lit "capabilities")
  field v (v ≠ .none) pyList (fun cs p => { p with capabilities := cs })

def priceField (msg : Msg) : Field :=
  let v := get msg (lit "price_axl")
  field v (v ≠ .none) pyFloat (fun q p => { p with priceAxl := q })

def seenField (now : ℚ) : Field := .ok (fun p => { p with lastSeen := now })

def tasksField (msg : Msg) : Field :=
  .ok (fun p => { p with tasksHeld := getD msg (lit "tasks_held") (.list []) })

/-- What a heartbeat stores, in order. -/
def heartbeatFields (now : ℚ) (msg : Msg) : List Field :=
  [seenField now, tasksField msg, shardField msg, encField msg, leaseField msg,
   capabilitiesField msg, priceField msg]

/-- What a join stores once its sender is alive, in order. -/
def joinFields (msg : Msg) : List Field :=
  [shardField msg, encField msg, capabilitiesField msg, priceField msg]

/-- A record with the fields before the first one that does not convert. -/
def advertised : List Field → PeerInfo → PeerInfo
  | [], p => p
  | .ok f :: fs, p => advertised fs (f p)
  | .error _ :: _, p => p

def Readable (fs : List Field) : Prop := ∀ f ∈ fs, ∃ g, f = .ok g

/-! ## The relay -/

/-- The keys of a table with their statuses. -/
def roll (s : MembershipLayer) : List (Key × PeerStatus) :=
  s.peers.entries.map (fun e => (e.1, e.2.status))

/-- A peer that a heartbeat names: unless it is known, it is entered as alive. -/
def enroll (own : PyStr) (r : List (Key × PeerStatus)) (x : PyVal) : List (Key × PeerStatus) :=
  match hashKey x with
  | .ok k => if k ≠ .str own ∧ lookup k r = none then r ++ [(k, .alive)] else r
  | .error _ => r

/-- The first three of the peers that are not dead, connected ones first. -/
def relayTargets (env : MemberEnv) (axl : List PyStr) (r : List (Key × PeerStatus)) (msg : Msg) :
    List Key :=
  let alive := (r.filter (fun e => e.2 ≠ .dead)).map Prod.fst
  (env.shuffle msg (alive.filter (fun k => k ∈ axl.map Key.str)) ++
    env.shuffle msg (alive.filter (fun k => k ∉ axl.map Key.str))).take gossipFanout

/-- The hops are a number, and if any remain no target is a number. -/
def RelaysOk (env : MemberEnv) (axl : List PyStr) (r : List (Key × PeerStatus)) (msg : Msg) :
    Prop :=
  ∃ relayed, decHops msg = .ok relayed ∧
    ∀ m, relayed = some m → ∀ k ∈ relayTargets env axl r m, ∀ q, k ≠ .num q

/-! ## What a list names -/

/-- A key a heartbeat lists that raises nothing. -/
def Loggable (s : MembershipLayer) (x : PyVal) : Prop :=
  ∃ k, hashKey x = .ok k ∧ (IsText k ∨ s.knows k)

def Familiar (s : MembershipLayer) (x : PyVal) : Prop :=
  ∃ k, hashKey x = .ok k ∧ (k = .str s.ourKey ∨ s.knows k)

/-- No heartbeat from this peer with this list would enter a new key before it
    raises: the first item that is not known, if there is one, is unhashable. -/
def NamesNoOne (s : MembershipLayer) (xs : List PyVal) : Prop :=
  ∀ known x rest, xs = known ++ x :: rest → (∀ y ∈ known, Familiar s y) →
    Familiar s x ∨ ∃ e, hashKey x = .error e

theorem updatePeer_id (k : Key) (s : MembershipLayer) : updatePeer k id s = s := by
  unfold updatePeer
  cases hk : s.peers.get? k with
  | none => rfl
  | some p =>
      simp only [id_eq]
      rw [Dict.set_same _ _ _ hk]

theorem updatePeer_updatePeer (k : Key) (f g : PeerInfo → PeerInfo) (s : MembershipLayer) :
    updatePeer k g (updatePeer k f s) = updatePeer k (fun p => g (f p)) s := by
  cases hk : s.peers.get? k with
  | none => simp only [updatePeer, hk]
  | some p => simp only [updatePeer, hk, Dict.get?_set_self, Dict.set_set]

theorem updatePeer_get? {s : MembershipLayer} {k : Key} {p : PeerInfo}
    (hp : s.peers.get? k = some p) (f : PeerInfo → PeerInfo) :
    (updatePeer k f s).peers.get? k = some (f p) := by
  simp only [updatePeer, hp, Dict.get?_set_self]

def takeField (k : Key) : Field → Act Unit
  | .ok f => modify (updatePeer k f)
  | .error e => raise e

/-- Store fields in order, then go on. -/
def takeFields (k : Key) (rest : Act Unit) : List Field → Act Unit
  | [] => rest
  | f :: fs => do
    takeField k f
    takeFields k rest fs

theorem adopt_eq_takeField {α : Type} (k : Key) (v : PyVal) (given : Bool)
    (convert : PyVal → Except PyErr α) (store : α → PeerInfo → PeerInfo) :
    adopt k v given convert store = takeField k (field v given convert store) := by
  funext s
  unfold adopt field
  cases given with
  | false =>
      change (⟨.ok (), s, []⟩ : Effect PyErr MembershipLayer Send Unit) =
        ⟨.ok (), updatePeer k id s, []⟩
      rw [updatePeer_id]
  | true =>
      rw [if_pos rfl, if_pos rfl]
      cases convert v with
      | error e => rfl
      | ok a => rfl

theorem readable_cons_ok (f : PeerInfo → PeerInfo) (fs : List Field) :
    Readable (.ok f :: fs) ↔ Readable fs := by
  unfold Readable
  rw [List.forall_mem_cons]
  exact and_iff_right ⟨f, rfl⟩

theorem logKey_text {k : Key} (h : IsText k) (s : MembershipLayer) :
    logKey k s = ⟨.ok (), s, []⟩ := by
  rcases h with ⟨x, rfl⟩
  rfl

/-- A peer that is known keeps its record. -/
def recordFrame : Frame MembershipLayer Send where
  rel := fun s t => ∀ k p, s.peers.get? k = some p → t.peers.get? k = some p
  out := fun _ _ => True
  refl := fun _ _ _ h => h
  trans := fun _ _ _ hst htu k p h => htu k p (hst k p h)
  pull := fun _ _ _ _ h => h

theorem discover_records (now : ℚ) (k : Key) : Within recordFrame (discover now k) := by
  refine fun s => withinAt_read_bind ?_
  cases hk : s.peers.get? k with
  | some p => exact within_pure () s
  | none =>
      refine withinAt_bind (withinAt_modify (fun k' p hp => ?_)) (fun _ _ => ?_)
      · have hne : k' ≠ k := by
          rintro rfl
          rw [hk] at hp
          exact absurd hp (by simp only [reduceCtorEq, not_false_eq_true])
        exact (Dict.get?_set_of_ne _ _ _ _ hne).trans hp
      · cases k with
        | str x => exact within_pure () _
        | none => exact within_raise _ _
        | num q => exact within_raise _ _

theorem absorb_records (now : ℚ) (x : PyVal) : Within recordFrame (absorb now x) := by
  refine within_bind_attempt (fun k _ s => withinAt_read_bind ?_)
  by_cases hk : k = .str s.ourKey
  · rw [if_neg (not_not.mpr hk)]
    exact within_pure () s
  · rw [if_pos hk]
    exact discover_records now k s

theorem forward_records (env : MemberEnv) (msg : Msg) : Within recordFrame (forward env msg) :=
  fun s => withinAt_of_still (forward_still env msg s) (fun _ _ => trivial)

/-- The end of a heartbeat: the peers it lists, and the relay. -/
def absorbKnown (env : MemberEnv) (msg : Msg) : Act Unit := do
  let known ← attempt (pyList (getD msg (lit "known_peers") (.list [])))
  each (absorb env.now) known
  forward env msg

theorem absorbKnown_records (env : MemberEnv) (msg : Msg) :
    Within recordFrame (absorbKnown env msg) :=
  within_bind_attempt (fun known _ => within_bind
    (within_each known (fun x _ => absorb_records env.now x)) (fun _ => forward_records env msg))

theorem knows_of_records {s t : MembershipLayer} (h : recordFrame.rel s t) {k : Key}
    (hk : s.knows k) : t.knows k := by
  rcases (knows_iff s k).mp hk with ⟨p, hp⟩
  exact (knows_iff t k).mpr ⟨p, h k p hp⟩

/-! ## Lists that name no one new -/

section Rules

variable {Q : MembershipLayer → Prop} {s : MembershipLayer} {k : Key} {y : Act Unit}

end Rules

/-- A table whose roll has the sender as alive in addition. -/
structure Heard (s t : MembershipLayer) (k : Key) : Prop where
  roll : roll t = assign k .alive (roll s)
  ourKey : t.ourKey = s.ourKey
  axlConnected : t.axlConnected = s.axlConnected

theorem onHeartbeat_run (env : MemberEnv) {msg : Msg} {s : MembershipLayer} {k : Key}
    (hfrom : From s msg k) :
    onHeartbeat env msg s = (discover env.now k >>= fun _ =>
      takeFields k (revive k >>= fun _ => absorbKnown env msg)
        (heartbeatFields env.now msg)) s := by
  unfold onHeartbeat
  rw [read_bind, if_pos hfrom.1, hfrom.2, attempt_ok_bind]
  unfold adoptShardId adoptEncPubkey adoptLeaseDuration adoptCapabilities adoptPriceAxl
  simp only [adopt_eq_takeField]
  rfl

end MembershipLayer

end WhisperNet
