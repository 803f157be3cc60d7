import WhisperNet.Membership.Effects

/-!
# One Quorum at a Time

Two views of one cluster. A node takes the peers it has confirmed dead off the
size of the cluster, so two nodes compare what they see with two different
numbers, and two majorities need not meet. They cannot both be majorities all
the same while neither node has confirmed dead what one of them still sees: then
what the two see and what either has confirmed dead are disjoint parts of the
cluster. Twice what a node with a quorum sees exceeds what it has left of the
cluster, and the two together would exceed the cluster itself.

## Main definitions

* `Seen`: A node itself and the peers it takes for alive.
* `seenKeys`, `deadKeys`: What a node sees and has confirmed dead, as sets.

## Theorems

* `card_seenKeys`: What the quorum counts.
* `card_le_of_accurate`: The parts of the cluster have room in it.
* `quorum_exclusive`: Only one of two such nodes has a quorum.
-/

namespace WhisperNet

open MembershipLayer

namespace MembershipLayer

/-- The node itself or a peer it takes for alive. -/
def Seen (M : MembershipLayer) (k : Key) : Prop := k = .str M.ourKey ∨ M.aliveAt k

/-- The keys a node sees. -/
def seenKeys (M : MembershipLayer) : Finset Key :=
  insert (.str M.ourKey) (M.keysWhere (fun p => p.status = .alive)).toFinset

/-- The keys a node has confirmed dead. -/
def deadKeys (M : MembershipLayer) : Finset Key :=
  (M.keysWhere (fun p => p.status = .dead)).toFinset

end MembershipLayer

theorem mem_seenKeys (M : MembershipLayer) (k : Key) : k ∈ M.seenKeys ↔ M.Seen k := by
  rw [seenKeys, Finset.mem_insert, List.mem_toFinset, mem_keysWhere_status]
  rfl

theorem mem_deadKeys (M : MembershipLayer) (k : Key) : k ∈ M.deadKeys ↔ M.deadAt k := by
  rw [deadKeys, List.mem_toFinset, mem_keysWhere_status]
  rfl

theorem knows_of_aliveAt {M : MembershipLayer} {k : Key} (h : M.aliveAt k) : M.knows k := by
  intro hnone
  rw [aliveAt, hnone] at h
  simp only [reduceCtorEq] at h

theorem knows_of_deadAt {M : MembershipLayer} {k : Key} (h : M.deadAt k) : M.knows k := by
  intro hnone
  rw [deadAt, hnone] at h
  simp only [reduceCtorEq] at h

/-- A node that is no peer of its own sees one more than it counts alive. -/
theorem card_seenKeys {N : Key → Prop} {M : MembershipLayer} (hclean : Clean N M) :
    M.seenKeys.card = M.count .alive + 1 := by
  rw [seenKeys, Finset.card_insert_of_notMem, List.toFinset_card_of_nodup (keysWhere_nodup M _)]
  · rfl
  · intro hmem
    rw [List.mem_toFinset, mem_keysWhere_status] at hmem
    exact (hclean _ (knows_of_aliveAt hmem)).2 rfl

theorem card_deadKeys (M : MembershipLayer) : M.deadKeys.card = M.count .dead :=
  List.toFinset_card_of_nodup (keysWhere_nodup M _)

/-- The keys of a view are in the cluster. -/
theorem seenKeys_subset {V : Finset Key} {M : MembershipLayer} (hclean : Clean (fun k => k ∈ V) M)
    (hown : .str M.ourKey ∈ V) : M.seenKeys ⊆ V := by
  intro k hk
  rcases (mem_seenKeys M k).mp hk with hself | halive
  · rw [hself]
    exact hown
  · exact (hclean k (knows_of_aliveAt halive)).1

/-- What two nodes see and what a third view has confirmed dead fit into the
    cluster side by side. -/
theorem card_le_of_accurate {V : Finset Key} {a b M : MembershipLayer} (ha : a.seenKeys ⊆ V)
    (hb : b.seenKeys ⊆ V) (hM : Clean (fun k => k ∈ V) M)
    (hdisj : ∀ k, ¬ (a.Seen k ∧ b.Seen k)) (hdead : ∀ k, a.Seen k ∨ b.Seen k → ¬ M.deadAt k) :
    a.seenKeys.card + b.seenKeys.card + M.deadKeys.card ≤ V.card := by
  have hab : Disjoint a.seenKeys b.seenKeys := by
    rw [Finset.disjoint_left]
    intro k hka hkb
    exact hdisj k ⟨(mem_seenKeys a k).mp hka, (mem_seenKeys b k).mp hkb⟩
  have hlive : Disjoint (a.seenKeys ∪ b.seenKeys) M.deadKeys := by
    rw [Finset.disjoint_left]
    intro k hk hkd
    rw [Finset.mem_union, mem_seenKeys, mem_seenKeys] at hk
    exact hdead k hk ((mem_deadKeys M k).mp hkd)
  rw [← Finset.card_union_of_disjoint hab, ← Finset.card_union_of_disjoint hlive]
  refine Finset.card_le_card (Finset.union_subset (Finset.union_subset ha hb) (fun k hk => ?_))
  exact (hM k (knows_of_deadAt ((mem_deadKeys M k).mp hk))).1

/-- Two nodes of a cluster of one configured size that see no node in common,
    and of which neither has confirmed dead a node that one of them sees, do not
    both have a quorum. -/
theorem quorum_exclusive (N : Int) (hN : 2 ≤ N) (V : Finset Key) (hV : (V.card : Int) ≤ N)
    (a b : MembershipLayer) (hasize : a.clusterSize = N) (hbsize : b.clusterSize = N)
    (haown : .str a.ourKey ∈ V) (hbown : .str b.ourKey ∈ V)
    (hapeers : Clean (fun k => k ∈ V) a) (hbpeers : Clean (fun k => k ∈ V) b)
    (hdisj : ∀ k, ¬ (a.Seen k ∧ b.Seen k))
    (hdead : ∀ k, a.Seen k ∨ b.Seen k → ¬ a.deadAt k ∧ ¬ b.deadAt k) :
    ¬ (a.hasQuorum = true ∧ b.hasQuorum = true) := by
  rintro ⟨hqa, hqb⟩
  have hva := (hasQuorum_iff a (by omega)).mp hqa
  have hvb := (hasQuorum_iff b (by omega)).mp hqb
  have hsa := seenKeys_subset hapeers haown
  have hsb := seenKeys_subset hbpeers hbown
  -- Each of the two dead sets fits in beside both live ones.
  have hrooma := card_le_of_accurate hsa hsb hapeers hdisj (fun k hk => (hdead k hk).1)
  have hroomb := card_le_of_accurate hsa hsb hbpeers hdisj (fun k hk => (hdead k hk).2)
  rw [card_seenKeys hapeers, card_seenKeys hbpeers, card_deadKeys] at hrooma hroomb
  omega

namespace Halves

/-- Four nodes, of which one has confirmed the fourth dead. -/
def keys : Finset Key := {.str (lit "a"), .str (lit "b"), .str (lit "c"), .str (lit "d")}

def peer (st : PeerStatus) : PeerInfo := { status := st, lastSeen := 0 }

/-- Sees itself and `c`. -/
def viewA : MembershipLayer where
  ourKey := lit "a"
  clusterSize := 4
  peers := ((Dict.empty.set (.str (lit "b")) (peer .suspected)).set (.str (lit "c"))
    (peer .alive)).set (.str (lit "d")) (peer .dead)

/-- Sees itself only. -/
def viewB : MembershipLayer where
  ourKey := lit "b"
  clusterSize := 4
  peers := Dict.empty.set (.str (lit "a")) (peer .suspected)

theorem clean_of_keys {V : Finset Key} {M : MembershipLayer}
    (h : ∀ k ∈ M.peers.keys, k ∈ V ∧ k ≠ .str M.ourKey) : Clean (fun k => k ∈ V) M := by
  intro k hk
  rcases (knows_iff M k).mp hk with ⟨p, hp⟩
  exact h k (List.mem_map.mpr ⟨(k, p), (Dict.mem_entries_iff M.peers k p).mpr hp, rfl⟩)

/-- The first node has a quorum, with half of the four, and the second has none. -/
theorem one_quorum :
    viewA.hasQuorum = true ∧ ¬ (viewA.hasQuorum = true ∧ viewB.hasQuorum = true) := by
  refine ⟨by decide +kernel, quorum_exclusive 4 (by decide) keys (by decide) viewA viewB rfl rfl
    (by decide) (by decide) (clean_of_keys (by decide +kernel)) (clean_of_keys (by decide +kernel))
    (fun k hk => ?_) (fun k hk => ?_)⟩
  · have hdisj : ∀ k ∈ viewA.seenKeys, k ∉ viewB.seenKeys := by decide +kernel
    exact hdisj k ((mem_seenKeys viewA k).mpr hk.1) ((mem_seenKeys viewB k).mpr hk.2)
  · have hlive : ∀ k ∈ viewA.seenKeys ∪ viewB.seenKeys, ¬ viewA.deadAt k ∧ ¬ viewB.deadAt k := by
      decide +kernel
    rw [← mem_seenKeys, ← mem_seenKeys, ← Finset.mem_union] at hk
    exact hlive k hk

end Halves

end WhisperNet
