import WhisperNet.Membership.Quorum
import WhisperNet.Membership.Suspicion

/-!
# Who Is Counted and Who Comes Back

Two rules that no single line of the source states. A node is in neither of its
own tables: every place that inserts a key has a guard of its own against the
node's key, and gossip can bring that key back as a sender, as a suspect or
among the known peers. The quorum rests on it, since it counts the node itself
on top of the peers it takes for alive. And a peer that was confirmed dead is
given up for good by everyone but itself: neither the topology, nor a report,
nor the failure detector, nor the list in a heartbeat of somebody else changes
its status, only a message that it sent.

Both are read off the atomic changes. `suspicions_of_changes` adds to the table
of reports what `clean_of_changes` is for the table of peers, and
`alive_or_dead_of_changes` says where a dead peer can go.

## Main definitions

* `MembershipLayer.SelfExcluded`: The node is in neither table.
* `MembershipLayer.SeesMajority`: The quorum, as a comparison of sets of keys.
* `MembershipLayer.CountsOnce`: The quorum counts every node once.
* `Watch.HeardFrom`: The step is a heartbeat or a join of a peer.
* `Watch.BroughtBack`: Whoever is no longer dead is alive and was heard from.

## Theorems

* `suspicions_of_changes`: No reports against the node itself.
* `alive_or_dead_of_changes`: A dead peer is not suspected.
* `countsOnce_of_selfExcluded`: The quorum rests on the exclusion.
* `step_selfExcluded`: A step keeps the node out of its tables.
* `step_broughtBack`: What a step does to a dead peer.
* `excluded_and_brought_back`: Over any run.
-/

namespace WhisperNet

open MembershipLayer WhisperNet.Action
open PyVal (get getD)

namespace MembershipLayer

variable (M : MembershipLayer)

/-- The node is a key of neither table. -/
structure SelfExcluded : Prop where
  peers : ¬ M.knows (.str M.ourKey)
  suspicions : M.suspicions.get? (.str M.ourKey) = none

/-- The node itself and all peers in its table. -/
def nodeKeys : Finset Key := insert (.str M.ourKey) M.peers.keys.toFinset

/-- The size of the cluster: the configured one, or else the nodes known. -/
def viewSize : Int := if M.clusterSize > 0 then M.clusterSize else M.nodeKeys.card

/-- The nodes seen are more than half of those that are left, every node taken
    once. -/
def SeesMajority : Prop :=
  M.viewSize ≤ 1 ∨ M.viewSize - M.deadKeys.card < 2 * M.seenKeys.card

/-- The quorum is a majority of nodes, the node itself among those seen only. -/
structure CountsOnce : Prop where
  quorum : M.hasQuorum = true ↔ M.SeesMajority
  own : .str M.ourKey ∉ M.deadKeys

end MembershipLayer

/-! ## What the changes keep -/

section Changes

variable {own : PyStr} {N : Key → Prop} {A : Change → Prop}

theorem suspicions_updatePeer (k : Key) (f : PeerInfo → PeerInfo) (s : MembershipLayer) :
    (updatePeer k f s).suspicions = s.suspicions := by
  unfold updatePeer
  cases s.peers.get? k with
  | none => rfl
  | some p => rfl

/-- No change makes a report against the node itself. -/
theorem suspicions_apply {s : MembershipLayer} {c : Change} (hg : c.guard own s)
    (h : s.suspicions.get? (.str own) = none) :
    (c.apply s).suspicions.get? (.str own) = none := by
  cases c with
  | insert now k => exact h
  | advertise k f =>
      simp only [Change.apply, suspicions_updatePeer]
      exact h
  | revive k =>
      -- The reports of the revived peer are dropped; the others stay.
      simp only [Change.apply, popSuspicions, setStatus, suspicions_updatePeer]
      by_cases hk : Key.str own = k
      · rw [hk, Dict.get?_erase_self]
      · rw [Dict.get?_erase_of_ne _ _ _ hk]
        exact h
  | suspect k =>
      simp only [Change.apply, setStatus, suspicions_updatePeer]
      exact h
  | openReports k =>
      have hne : Key.str own ≠ k := fun hk => hg hk.symm
      simp only [Change.apply, MembershipLayer.openReports, Dict.get?_set_of_ne _ _ _ _ hne]
      exact h
  | addReport k r =>
      have hne : Key.str own ≠ k := fun hk => hg hk.symm
      simp only [Change.apply, MembershipLayer.addReport, Dict.get?_set_of_ne _ _ _ _ hne]
      exact h
  | condemn k =>
      simp only [Change.apply, setStatus, suspicions_updatePeer]
      exact h
  | seen v => exact h
  | connect ks => exact h

theorem suspicions_of_changes {s t : MembershipLayer} (h : Changes own N A s t)
    (hs : s.suspicions.get? (.str own) = none) : t.suspicions.get? (.str own) = none := by
  induction h with
  | refl => exact hs
  | tail _ hlast ih =>
      rcases hlast with ⟨c, -, -, hg, ht⟩
      rw [ht]
      exact suspicions_apply hg ih

/-- A peer that is alive stays alive unless it is suspected or condemned. -/
theorem alive_after_apply {s : MembershipLayer} {c : Change} (hg : c.guard own s) {k : Key}
    (hk : s.aliveAt k) :
    (c.apply s).aliveAt k ∨ (c.apply s).deadAt k ∨ c = .suspect k := by
  have halive : s.statusAt k = some .alive := hk
  unfold MembershipLayer.aliveAt MembershipLayer.deadAt
  rw [statusAt_apply own s c hg k]
  cases c with
  | insert now k' =>
      left
      rw [Change.statusAfter]
      by_cases hkk : k = k'
      · rw [if_pos hkk]
      · rw [if_neg hkk, halive]
  | revive k' =>
      left
      rw [Change.statusAfter, statusMoved, halive]
      by_cases hkk : k = k'
      · rw [if_pos hkk]
        rfl
      · rw [if_neg hkk]
  -- The one change that leaves a peer neither alive nor dead.
  | suspect k' =>
      rw [Change.statusAfter, statusMoved, halive]
      by_cases hkk : k = k'
      · rw [hkk]
        exact Or.inr (Or.inr rfl)
      · rw [if_neg hkk]
        exact Or.inl rfl
  | condemn k' =>
      rw [Change.statusAfter, statusMoved, halive]
      by_cases hkk : k = k'
      · rw [if_pos hkk]
        exact Or.inr (Or.inl rfl)
      · rw [if_neg hkk]
        exact Or.inl rfl
  | advertise k' f => exact Or.inl halive
  | openReports k' => exact Or.inl halive
  | addReport k' r => exact Or.inl halive
  | seen v => exact Or.inl halive
  | connect ks => exact Or.inl halive

/-- Where it is not suspected, a peer that was dead is dead or alive. -/
theorem alive_or_dead_of_changes {k : Key} (hA : ¬ A (.suspect k)) {s t : MembershipLayer}
    (h : Changes own N A s t) (hk : s.deadAt k) : t.aliveAt k ∨ t.deadAt k := by
  induction h with
  | refl => exact Or.inr hk
  | tail _ hlast ih =>
      rcases hlast with ⟨c, hAc, -, hg, ht⟩
      rw [ht]
      rcases ih with halive | hdead
      · rcases alive_after_apply hg halive with hstill | hcond | hsusp
        · exact Or.inl hstill
        · exact Or.inr hcond
        · rw [hsusp] at hAc
          exact absurd hAc hA
      · rcases dead_after_apply hg hdead with hstill | ⟨_, halive⟩
        · exact Or.inr hstill
        · exact Or.inl halive

/-- A node in neither table is not a key of its peers. -/
theorem clean_of_selfExcluded {s : MembershipLayer} (h : s.SelfExcluded) :
    Clean (fun _ => True) s :=
  fun _ hk => ⟨trivial, fun hown => h.peers (by rw [← hown]; exact hk)⟩

/-- Changes keep the node out of its tables. -/
theorem selfExcluded_of_changes {s t : MembershipLayer}
    (h : Changes s.ourKey (fun _ => True) A s t) (hs : s.SelfExcluded) : t.SelfExcluded := by
  refine ⟨fun hk => (clean_of_changes h rfl (clean_of_selfExcluded hs) _ hk).2 rfl, ?_⟩
  rw [ourKey_of_changes h]
  exact suspicions_of_changes h hs.suspicions

end Changes

/-! ## The quorum -/

theorem card_nodeKeys {M : MembershipLayer} (h : ¬ M.knows (.str M.ourKey)) :
    M.nodeKeys.card = M.peers.entries.length + 1 := by
  have hnew : Key.str M.ourKey ∉ M.peers.keys.toFinset := by
    intro hmem
    rcases List.mem_map.mp (List.mem_toFinset.mp hmem) with ⟨e, he, hek⟩
    refine h ((knows_iff M _).mpr ⟨e.2, ?_⟩)
    rw [← hek]
    exact (Dict.mem_entries_iff M.peers e.1 e.2).mp he
  have hlen : M.peers.keys.toFinset.card = M.peers.entries.length :=
    (List.toFinset_card_of_nodup M.peers.nodup).trans (List.length_map _)
  rw [nodeKeys, Finset.card_insert_of_notMem hnew, hlen]

/-- A node that is no peer of its own counts every node once. -/
theorem countsOnce_of_selfExcluded {M : MembershipLayer} (h : M.SelfExcluded) : M.CountsOnce := by
  have hsize : M.getEffectiveClusterSize = M.viewSize := by
    rw [getEffectiveClusterSize, viewSize, card_nodeKeys h.peers]
    push_cast
    rfl
  refine ⟨?_, fun hdead => h.peers (knows_of_deadAt ((mem_deadKeys M _).mp hdead))⟩
  rw [SeesMajority, card_seenKeys (clean_of_selfExcluded h), card_deadKeys, hasQuorum, hsize]
  by_cases hsmall : M.viewSize ≤ 1
  · rw [if_pos hsmall]
    exact iff_of_true rfl (Or.inl hsmall)
  · rw [if_neg hsmall, decide_eq_true_eq]
    push_cast
    constructor
    · exact Or.inr
    · exact fun hc => hc.resolve_left hsmall

/-! ## Steps -/

namespace Watch

/-- The event is a heartbeat or a join that is handled, from the peer with this
    key. -/
def HeardFrom (w : Watch) (k : Key) : WatchEvent → Prop
  | .beat _ => False
  | .receive _ _ msg =>
    (w.layer.dispatches (lit "heartbeat") msg = true ∨
      w.layer.dispatches (lit "node_join") msg = true) ∧
    hashKey (get msg (lit "from")) = .ok k

/-- Whoever is dead before the step and not after it is alive, and was heard
    from. -/
def BroughtBack (w : Watch) (e : WatchEvent) : Prop :=
  ∀ w', w.step e = some w' → ∀ k, w.layer.deadAt k → ¬ w'.layer.deadAt k →
    w'.layer.aliveAt k ∧ w.HeardFrom k e

end Watch

theorem step_selfExcluded {w w' : Watch} {e : WatchEvent} (h : w.layer.SelfExcluded)
    (hstep : w.step e = some w') : w'.layer.SelfExcluded := by
  cases e with
  | beat b =>
      rw [← Option.some.inj hstep]
      rcases Mesh.beat_within_any w.layer.ourKey b with ⟨A, hx, _, _⟩
      exact selfExcluded_of_changes ((hx w.layer).1 rfl) h
  | receive env fromPeer msg =>
      rw [← Option.some.inj hstep]
      have hmsg : NamesOnly (fun _ => True) msg := fun _ _ => trivial
      exact selfExcluded_of_changes ((handleMessage_within env fromPeer msg hmsg w.layer).1 rfl) h

/-- What news does to a peer that was dead. -/
theorem dead_after_news {own : PyStr} {msg : Msg} {s t : MembershipLayer} {k : Key}
    (h : Changes own (fun _ => True) (ByNews msg) s t) (hk : s.deadAt k) (hafter : ¬ t.deadAt k) :
    t.aliveAt k ∧ hashKey (get msg (lit "from")) = .ok k := by
  have hno : ¬ ByNews msg (.suspect k) := fun hc => hc
  refine ⟨(alive_or_dead_of_changes hno h hk).resolve_right hafter, ?_⟩
  by_contra hfrom
  exact hafter (dead_of_changes (A := ByNews msg) hfrom h hk)

/-- Whoever a step brings back is alive, and it was heard from. -/
theorem step_broughtBack (w : Watch) (e : WatchEvent) : w.BroughtBack e := by
  intro w' hstep k hk hafter
  cases e with
  | beat b =>
      -- No operation of the node itself revives anyone.
      rw [← Option.some.inj hstep] at hafter
      rcases Mesh.beat_within_any w.layer.ourKey b with ⟨A, hx, _, hA⟩
      exact absurd (dead_of_changes (hA k) ((hx w.layer).1 rfl) hk) hafter
  | receive env fromPeer msg =>
      rw [← Option.some.inj hstep] at hafter ⊢
      have hmsg : NamesOnly (fun _ => True) msg := fun _ _ => trivial
      rcases handleMessage_state env fromPeer msg w.layer with hs | ⟨t, ht, hs⟩
      · simp only [hs] at hafter
        exact absurd hk hafter
      have hseen : t.deadAt k := by rw [ht]; exact hk
      rcases hs with hs | ⟨hd, hs⟩ | ⟨_, hs⟩ | ⟨hd, hs⟩
      · simp only [hs] at hafter
        exact absurd hseen hafter
      · simp only [hs] at hafter ⊢
        have hchanges := (onHeartbeat_within env msg hmsg t).1 rfl
        rcases dead_after_news hchanges hseen hafter with ⟨halive, hfrom⟩
        exact ⟨halive, Or.inl hd, hfrom⟩
      · -- A report revives nobody.
        simp only [hs] at hafter
        have hno : ¬ ByReport msg (.revive k) := fun hc => hc
        have hchanges := (onSuspicion_within env fromPeer msg hmsg t).1 rfl
        exact absurd (dead_of_changes hno hchanges hseen) hafter
      · simp only [hs] at hafter ⊢
        have hchanges := (onNodeJoin_within env msg hmsg t).1 rfl
        rcases dead_after_news hchanges hseen hafter with ⟨halive, hfrom⟩
        exact ⟨halive, Or.inr hd, hfrom⟩

/-! ## Runs -/

theorem selfExcluded_fresh (s : MembershipLayer) : s.fresh.SelfExcluded :=
  ⟨fun hk => hk rfl, rfl⟩

/-- In every run from empty tables, whatever is received and whatever the
    topology shows: the node is in neither of its tables and the quorum counts
    every node once, and a dead peer comes back only by a heartbeat or a join of
    its own, which leaves it alive. -/
theorem excluded_and_brought_back (s : MembershipLayer) (es : List WatchEvent) :
    Machine.Throughout Watch.step (fun w => w.layer.SelfExcluded ∧ w.layer.CountsOnce)
        ⟨s.fresh, []⟩ es ∧
      Machine.Along Watch.step Watch.BroughtBack ⟨s.fresh, []⟩ es := by
  have hexcluded : Machine.Throughout Watch.step (fun w => w.layer.SelfExcluded)
      ⟨s.fresh, []⟩ es :=
    Machine.throughout_of_along Watch.step _ (fun _ _ => True)
      (fun _ _ _ h _ hstep => step_selfExcluded h hstep) _ es (selfExcluded_fresh s)
      (Machine.along_of_forall Watch.step _ _ es (fun _ _ _ => trivial))
  constructor
  · exact hexcluded.mono (fun w h => ⟨h, countsOnce_of_selfExcluded h⟩)
  · exact Machine.along_of_forall Watch.step _ _ es (fun e _ w => step_broughtBack w e)

end WhisperNet
