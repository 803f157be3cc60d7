import Mathlib.Data.Finset.Card
import WhisperNet.Crypto.Primitives
import WhisperNet.Lib.Window
import WhisperNet.Python.Convert

/-!
# The Membership Table

The state of `MembershipLayer` and the questions the rest of the node asks it.
A peer is filed under the key it announced itself with. Keys come from gossip
without a type check, so the table is keyed by any hashable value.

The counts behind the quorum follow the source: a suspected peer is neither
alive nor dead there, and the confirmed-dead ones are taken off the cluster
size. The division by two is exact, so the comparison is doubled instead.

A set of strings is a list here. Python iterates over one in an unspecified
order, and the list may be in any.

## Main definitions

* `PeerStatus`: Alive, suspected or dead.
* `PeerInfo`: What is known of a peer.
* `MembershipLayer`: The table of a node, with what it advertises.
* `MembershipLayer.getAlivePeers`: The peers that are not dead.
* `MembershipLayer.hasQuorum`: Whether a majority is visible.
* `MembershipLayer.getPeerForShard`: The alive owner of a shard.
* `MembershipLayer.getConsensusLeaseDuration`: The least duration reported.
* `MembershipLayer.statusAt`: The status of a key.

## Theorems

* `mem_getAlivePeers`: The peers that are not dead, by lookup.
* `getPeerForShard_eq_none`: No alive owner, by lookup.
* `hasQuorum_iff`: The quorum of a cluster of configured size.
* `mem_keysWhere_status`: The keys in a status, by lookup.
-/

namespace WhisperNet

open PyVal (get)

inductive PeerStatus
  | alive
  | suspected
  | dead
  deriving DecidableEq, Repr

structure PeerInfo where
  status : PeerStatus := .alive
  lastSeen : ℚ
  tasksHeld : PyVal := .list []
  /-- home shard, learned from heartbeats -/
  shardId : Option Int := none
  /-- X25519 pubkey for payload encryption -/
  encPubkey : PyVal := .none
  /-- lease duration this peer advertises -/
  reportedLeaseDuration : Option PyFloat := none
  capabilities : List PyVal := []
  /-- AXL per job this peer charges -/
  priceAxl : PyFloat := .num (1 / 100)
  deriving DecidableEq

structure MembershipLayer where
  ourKey : PyStr
  ourShardId : Int := 0
  clusterSize : Int := 0
  suspectAfter : ℚ := 10
  peers : Dict Key PeerInfo := Dict.empty
  /-- suspect → set of reporters -/
  suspicions : Dict Key (Finset Key) := Dict.empty
  seenIds : Window 1000 PyVal := Window.empty
  axlConnected : List PyStr := []
  prevAxlConnected : List PyStr := []
  ourEncPubkey : Option PyStr := none
  ourLeaseDuration : ℚ := 30
  ourCapabilities : List PyStr := []
  ourPriceAxl : ℚ := 1 / 100
  deriving DecidableEq

namespace MembershipLayer

variable (s : MembershipLayer)

/-- The state of a process that starts with this configuration. -/
def fresh : MembershipLayer :=
  { s with
    peers := Dict.empty
    suspicions := Dict.empty
    seenIds := Window.empty
    axlConnected := []
    prevAxlConnected := [] }

/-- The keys whose peer satisfies a test, in table order. -/
def keysWhere (p : PeerInfo → Bool) : List Key :=
  (s.peers.entries.filter (fun e => p e.2)).map Prod.fst

/-- `get_alive_peers`: despite its name, all that are not dead. -/
def getAlivePeers : List Key := s.keysWhere (fun p => p.status ≠ .dead)

/-- The number of peers in a status. -/
def count (st : PeerStatus) : Nat := (s.keysWhere (fun p => p.status = st)).length

/-- `get_effective_cluster_size`. -/
def getEffectiveClusterSize : Int :=
  if s.clusterSize > 0 then s.clusterSize else (s.peers.entries.length : Int) + 1

/-- `has_quorum`. -/
def hasQuorum : Bool :=
  if s.getEffectiveClusterSize ≤ 1 then true
  else 2 * ((s.count .alive : Int) + 1) > s.getEffectiveClusterSize - s.count .dead

/-- The `Optional[int]` of a peer as a value. -/
def shardVal : Option Int → PyVal
  | none => .none
  | some n => .int n

/-- `get_peer_for_shard`: the first alive peer whose shard compares equal. -/
def getPeerForShard (shardId : PyVal) : PyVal :=
  match s.peers.entries.find? (fun e =>
    pyEq (shardVal e.2.shardId) shardId && decide (e.2.status = .alive)) with
  | some e => e.1.toVal
  | none => .none

/-- `get_enc_pubkey`. -/
def getEncPubkey (peerKey : Key) : PyVal :=
  match s.peers.get? peerKey with
  | some p => p.encPubkey
  | none => .none

/-- The durations that peers report which are not dead, in the order of the table. -/
def durations : List PyFloat :=
  s.peers.values.filterMap (fun p => if p.status ≠ .dead then p.reportedLeaseDuration else none)

/-- `get_consensus_lease_duration`: the `min` of what is reported and our own. -/
def getConsensusLeaseDuration : PyFloat :=
  match s.durations with
  | [] => .num s.ourLeaseDuration
  | d :: ds => leastFloat d (ds ++ [.num s.ourLeaseDuration])

/-- The status of a key, if it is in the table. -/
def statusAt (k : Key) : Option PeerStatus := (s.peers.get? k).map PeerInfo.status

/-- Whether a key is marked dead. -/
def deadAt (k : Key) : Prop := s.statusAt k = some .dead

/-- Whether a key is marked alive. -/
def aliveAt (k : Key) : Prop := s.statusAt k = some .alive

/-- Whether a key is in the table. -/
def knows (k : Key) : Prop := s.statusAt k ≠ none

instance (k : Key) : Decidable (s.deadAt k) := inferInstanceAs (Decidable (_ = _))

instance (k : Key) : Decidable (s.aliveAt k) := inferInstanceAs (Decidable (_ = _))

end MembershipLayer

open MembershipLayer

theorem statusAt_eq_some (s : MembershipLayer) (k : Key) (st : PeerStatus) :
    s.statusAt k = some st ↔ ∃ p, s.peers.get? k = some p ∧ p.status = st := by
  unfold statusAt
  rw [Option.map_eq_some_iff]

theorem knows_iff (s : MembershipLayer) (k : Key) :
    s.knows k ↔ ∃ p, s.peers.get? k = some p := by
  unfold knows statusAt
  rw [ne_eq, Option.map_eq_none_iff, Option.eq_none_iff_forall_ne_some]
  simp only [not_forall, ne_eq, not_not]

theorem mem_keysWhere (s : MembershipLayer) (p : PeerInfo → Bool) (k : Key) :
    k ∈ s.keysWhere p ↔ ∃ i, s.peers.get? k = some i ∧ p i = true := by
  unfold keysWhere
  rw [List.mem_map]
  constructor
  · rintro ⟨e, he, hek⟩
    rcases List.mem_filter.mp he with ⟨hmem, hp⟩
    refine ⟨e.2, (Dict.mem_entries_iff s.peers k e.2).mp ?_, hp⟩
    rw [← hek]
    exact hmem
  · rintro ⟨i, hi, hp⟩
    exact ⟨(k, i), List.mem_filter.mpr ⟨(Dict.mem_entries_iff s.peers k i).mpr hi, hp⟩, rfl⟩

theorem keysWhere_nodup (s : MembershipLayer) (p : PeerInfo → Bool) : (s.keysWhere p).Nodup :=
  s.peers.nodup.sublist (List.filter_sublist.map Prod.fst)

theorem mem_keysWhere_status (s : MembershipLayer) (st : PeerStatus) (k : Key) :
    k ∈ s.keysWhere (fun p => p.status = st) ↔ s.statusAt k = some st := by
  rw [mem_keysWhere, statusAt_eq_some]
  simp only [decide_eq_true_eq]

theorem mem_getAlivePeers (s : MembershipLayer) (k : Key) :
    k ∈ s.getAlivePeers ↔ s.knows k ∧ ¬ s.deadAt k := by
  unfold getAlivePeers deadAt
  rw [mem_keysWhere, knows_iff, statusAt_eq_some]
  constructor
  · rintro ⟨i, hi, hp⟩
    refine ⟨⟨i, hi⟩, ?_⟩
    rintro ⟨j, hj, hdead⟩
    rw [hi, Option.some.injEq] at hj
    rw [← hj] at hdead
    exact of_decide_eq_true hp hdead
  · rintro ⟨⟨i, hi⟩, hnot⟩
    exact ⟨i, hi, decide_eq_true (fun hdead => hnot ⟨i, hi, hdead⟩)⟩

/-- No alive peer has the shard, or the one found first has no key. -/
theorem getPeerForShard_eq_none (s : MembershipLayer) (shardId : PyVal)
    (hkeys : ∀ k, s.knows k → k ≠ .none) :
    s.getPeerForShard shardId = .none ↔
      ∀ k p, s.peers.get? k = some p → pyEq (shardVal p.shardId) shardId = true →
        p.status ≠ .alive := by
  unfold getPeerForShard
  constructor
  · intro h k p hp hshard halive
    have hmem := (Dict.mem_entries_iff s.peers k p).mpr hp
    cases hfind : s.peers.entries.find? (fun e =>
        pyEq (shardVal e.2.shardId) shardId && decide (e.2.status = .alive)) with
    | none =>
        -- Nothing was found, but this peer would have been.
        have hno := List.find?_eq_none.mp hfind (k, p) hmem
        rw [hshard, decide_eq_true halive] at hno
        exact hno rfl
    | some e =>
        rw [hfind] at h
        have hknown : s.knows e.1 := (knows_iff s e.1).mpr
          ⟨e.2, (Dict.mem_entries_iff s.peers e.1 e.2).mp (List.mem_of_find?_eq_some hfind)⟩
        exact hkeys e.1 hknown ((toVal_eq_none e.1).mp h)
  · intro h
    have hfind : s.peers.entries.find? (fun e =>
        pyEq (shardVal e.2.shardId) shardId && decide (e.2.status = .alive)) = none := by
      refine List.find?_eq_none.mpr (fun e he hp => ?_)
      rw [Bool.and_eq_true, decide_eq_true_iff] at hp
      exact h e.1 e.2 ((Dict.mem_entries_iff s.peers e.1 e.2).mp he) hp.1 hp.2
    rw [hfind]

/-- With a configured size above one, the quorum is a count. -/
theorem hasQuorum_iff (s : MembershipLayer) (hsize : 1 < s.clusterSize) :
    s.hasQuorum = true ↔
      s.clusterSize < 2 * ((s.count .alive : Int) + 1) + s.count .dead := by
  have heff : s.getEffectiveClusterSize = s.clusterSize := if_pos (by omega)
  unfold hasQuorum
  rw [heff, if_neg (by omega), decide_eq_true_iff]
  omega

end WhisperNet
