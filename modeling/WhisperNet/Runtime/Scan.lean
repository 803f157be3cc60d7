import WhisperNet.Ledger.Ops
import WhisperNet.Membership.Effects

/-!
# What a Scan Selects

The selection of `_scan` in `whisper/runtime.py`: of the claimable tasks, a node
takes those of its own shard, then those of the shard it is the replica for,
then any other. Only the tasks of other shards are subject to the quorum and
to their home node not being seen alive, and only the last kind to the rule
that defers to a peer with the same capabilities.

The runtime of a node always has a membership layer; a runtime without one,
which the constructor allows, has no peers to defer to.

## Main definitions

* `AgentRuntime`: The configuration of a runtime.
* `replicaShardFor`: The shard a node is the designated backup for.
* `capablePeerAlive`: Whether an alive peer has all of some capabilities.
* `select`: The tasks a scan takes, in order.
* `LastResort`: What a task of no shard of ours has that is taken.
* `Offered`: What a claimable task has.

## Theorems

* `mem_select`: What it takes for a task to be selected.
* `quorum_of_rescue`: A task of another shard is selected with quorum only.
* `mem_claimable`: What it takes for a task to be claimable.
* `anyCapable_ok`: The peers a node defers to.
* `hasAll_str`: Capabilities are compared as sets.
-/

namespace WhisperNet

open MembershipLayer

structure AgentRuntime where
  /-- this node's home shard -/
  shardId : Int
  numShards : Int := 6
  capabilities : List PyStr := []

namespace AgentRuntime

variable (R : AgentRuntime)

/-- `_replica_shard_for` (circular: n→n-1). -/
def replicaShardFor : Int := (R.shardId - 2) % R.numShards + 1

/-- `required_caps.issubset(set(capabilities))`; a capability that cannot be
    hashed raises. -/
def hasAll (requiredCaps : List PyStr) (capabilities : List PyVal) : Except PyErr Bool :=
  (capabilities.mapM hashKey).map (fun ks => requiredCaps.all (fun c => .str c ∈ ks))

/-- The loop over the peers, up to the first capable one. -/
def anyCapable (requiredCaps : List PyStr) : List PeerInfo → Except PyErr Bool
  | [] => .ok false
  | p :: ps =>
    if p.status = .alive then
      match hasAll requiredCaps p.capabilities with
      | .error e => .error e
      | .ok true => .ok true
      | .ok false => anyCapable requiredCaps ps
    else anyCapable requiredCaps ps

/-- `_capable_peer_alive`. -/
def capablePeerAlive (membership : Option MembershipLayer) (requiredCaps : List PyStr) :
    Except PyErr Bool :=
  match membership with
  | none => .ok false
  | some M => if requiredCaps = [] then .ok false else anyCapable requiredCaps M.peers.values

/-- `has_quorum`, true without a membership layer. -/
def hasQuorum (membership : Option MembershipLayer) : Bool :=
  match membership with
  | none => true
  | some M => M.hasQuorum

/-- `_home_dead`: no alive peer owns the shard of the task. -/
def homeDead (membership : Option MembershipLayer) (t : Task) : Bool :=
  match membership with
  | none => true
  | some M => M.getPeerForShard t.shardId = .none

/-- `_no_capable_peer`. -/
def noCapablePeer (membership : Option MembershipLayer) : Except PyErr Bool :=
  if R.capabilities = [] then .ok true
  else (capablePeerAlive membership R.capabilities).map (fun b => !b)

/-- `t.shard_id == self.shard_id`. -/
def isHome (t : Task) : Bool := pyEq t.shardId (.int R.shardId)

/-- `t.shard_id == replica_id`. -/
def isReplica (t : Task) : Bool := pyEq t.shardId (.int R.replicaShardFor)

/-- The tasks of no shard of ours that this node may take as a last resort. -/
def generalOrphaned (membership : Option MembershipLayer) :
    List Task → Except PyErr (List Task)
  | [] => .ok []
  | t :: ts =>
    if !R.isHome t && !R.isReplica t && hasQuorum membership && homeDead membership t then
      match R.noCapablePeer membership with
      | .error e => .error e
      | .ok true => (generalOrphaned membership ts).map (fun out => t :: out)
      | .ok false => generalOrphaned membership ts
    else generalOrphaned membership ts

/-- The tasks `_scan` dispatches: `mine + replica_orphaned + general_orphaned`. -/
def select (membership : Option MembershipLayer) (claimable : List Task) :
    Except PyErr (List Task) :=
  let mine := claimable.filter R.isHome
  let replicaOrphaned := claimable.filter (fun t =>
    R.isReplica t && !R.isHome t && hasQuorum membership && homeDead membership t)
  (R.generalOrphaned membership claimable).map (fun general =>
    mine ++ replicaOrphaned ++ general)

/-- The claimable tasks of a ledger, and the ones selected. -/
def selectFrom (membership : Option MembershipLayer) (L : TaskLedger) (now : ℚ) :
    Except PyErr (List Task) :=
  match L.getClaimableTasks now with
  | .error e => .error e
  | .ok claimable => R.select membership claimable

end AgentRuntime

open AgentRuntime

/-! ## Selection -/

/-- A loop that leaves its head out, the head failing the test. -/
theorem mem_skipped {p : Task → Prop} {t t' : Task} {ts out : List Task}
    (ih : t ∈ out ↔ t ∈ ts ∧ p t) (hnot : ¬ p t') : t ∈ out ↔ t ∈ t' :: ts ∧ p t := by
  rw [ih, List.mem_cons]
  constructor
  · exact fun hc => ⟨Or.inr hc.1, hc.2⟩
  · rintro ⟨hhead | htail, hc⟩
    · rw [hhead] at hc
      exact absurd hc hnot
    · exact ⟨htail, hc⟩

/-- A loop that takes its head, which passes the test, and goes on without an
    error. -/
theorem mem_taken {p : Task → Prop} {t t' : Task} {ts out : List Task}
    {rest : Except PyErr (List Task)} (ih : ∀ {l}, rest = .ok l → (t ∈ l ↔ t ∈ ts ∧ p t))
    (hyes : p t') (h : rest.map (fun l => t' :: l) = .ok out) :
    t ∈ out ↔ t ∈ t' :: ts ∧ p t := by
  cases rest with
  | error e => exact (nomatch h)
  | ok l =>
      have hout : t' :: l = out := Except.ok.inj h
      rw [← hout, List.mem_cons, List.mem_cons, ih rfl]
      constructor
      · rintro (hhead | htail)
        · rw [hhead]
          exact ⟨Or.inl rfl, hyes⟩
        · exact ⟨Or.inr htail.1, htail.2⟩
      · rintro ⟨hhead | htail, hc⟩
        · exact Or.inl hhead
        · exact Or.inr ⟨htail, hc⟩

/-- What a task taken as a last resort has. -/
def LastResort (R : AgentRuntime) (M : Option MembershipLayer) (t : Task) : Prop :=
  R.isHome t = false ∧ R.isReplica t = false ∧ hasQuorum M = true ∧ homeDead M t = true ∧
    R.noCapablePeer M = .ok true

/-- The tasks taken as a last resort, when the capabilities could be compared. -/
theorem mem_generalOrphaned {R : AgentRuntime} {M : Option MembershipLayer} {claimable : List Task}
    {out : List Task} (h : R.generalOrphaned M claimable = .ok out) (t : Task) :
    t ∈ out ↔ t ∈ claimable ∧ LastResort R M t := by
  induction claimable generalizing out with
  | nil =>
      simp only [generalOrphaned, Except.ok.injEq] at h
      rw [← h]
      simp only [List.not_mem_nil, false_and]
  | cons t' ts ih =>
      by_cases hc : (!R.isHome t' && !R.isReplica t' && hasQuorum M && homeDead M t') = true
      · rw [generalOrphaned, if_pos hc] at h
        simp only [Bool.and_eq_true, Bool.not_eq_true'] at hc
        -- The peers are asked only once a task has passed the other tests.
        obtain ⟨verdict, hcap⟩ : ∃ verdict, R.noCapablePeer M = verdict := ⟨_, rfl⟩
        cases verdict with
        | error e =>
            rw [hcap] at h
            simp only [reduceCtorEq] at h
        | ok b =>
            cases b with
            | true =>
                simp only [hcap] at h
                exact mem_taken ih ⟨hc.1.1.1, hc.1.1.2, hc.1.2, hc.2, hcap⟩ h
            | false =>
                simp only [hcap] at h
                refine mem_skipped (ih h) (fun hyes => ?_)
                rcases hyes with ⟨_, _, _, _, hnone⟩
                rw [hcap] at hnone
                exact (nomatch hnone)
      · rw [generalOrphaned, if_neg hc] at h
        refine mem_skipped (ih h) (fun hyes => hc ?_)
        simp only [hyes.1, hyes.2.1, hyes.2.2.1, hyes.2.2.2.1, Bool.not_false, Bool.and_self]

/-- A task is selected as one of our shard, as one of the shard we are the
    replica for, or as a last resort. -/
theorem mem_select {R : AgentRuntime} {M : Option MembershipLayer} {claimable out : List Task}
    (h : R.select M claimable = .ok out) (t : Task) :
    t ∈ out ↔ t ∈ claimable ∧ (R.isHome t = true ∨
      R.isHome t = false ∧ hasQuorum M = true ∧ homeDead M t = true ∧
        (R.isReplica t = true ∨ R.noCapablePeer M = .ok true)) := by
  unfold select at h
  rcases hg : R.generalOrphaned M claimable with e | general
  · rw [hg] at h
    exact (nomatch h)
  · rw [hg] at h
    have hout := Except.ok.inj h
    rw [← hout, List.mem_append, List.mem_append, List.mem_filter, List.mem_filter,
      mem_generalOrphaned hg]
    unfold LastResort
    simp only [Bool.and_eq_true, Bool.not_eq_true']
    constructor
    · rintro ((⟨hmem, hhome⟩ | ⟨hmem, ⟨⟨hrep, hhome⟩, hq⟩, hdead⟩) |
        ⟨hmem, hhome, _, hq, hdead, hcap⟩)
      · exact ⟨hmem, Or.inl hhome⟩
      · exact ⟨hmem, Or.inr ⟨hhome, hq, hdead, Or.inl hrep⟩⟩
      · exact ⟨hmem, Or.inr ⟨hhome, hq, hdead, Or.inr hcap⟩⟩
    · rintro ⟨hmem, hhome | ⟨hhome, hq, hdead, hrep⟩⟩
      · exact Or.inl (Or.inl ⟨hmem, hhome⟩)
      · -- A replica is taken by the first list, and only the others by the last.
        cases hr : R.isReplica t with
        | true => exact Or.inl (Or.inr ⟨hmem, ⟨⟨rfl, hhome⟩, hq⟩, hdead⟩)
        | false =>
            have hcap := hrep.resolve_left (by rw [hr]; exact Bool.false_ne_true)
            exact Or.inr ⟨hmem, hhome, rfl, hq, hdead, hcap⟩

/-- A task of another shard is taken only with quorum, and only if no alive
    peer owns its shard. -/
theorem quorum_of_rescue {R : AgentRuntime} {M : MembershipLayer} {claimable out : List Task}
    (h : R.select (some M) claimable = .ok out) {t : Task} (ht : t ∈ out)
    (hhome : R.isHome t = false) : M.hasQuorum = true ∧ M.getPeerForShard t.shardId = .none := by
  rcases ((mem_select h t).mp ht).2 with hc | ⟨_, hq, hdead, _⟩
  · rw [hhome] at hc
    exact (Bool.false_ne_true hc).elim
  · exact ⟨hq, of_decide_eq_true hdead⟩

/-! ## Claimable tasks -/

/-- Pending, or expired and not ours. -/
def Offered (L : TaskLedger) (now : ℚ) (t : Task) : Prop :=
  t.status = .pending ∨ t.status = .inProgress ∧
    PyVal.lt t.leaseExpires (.float now) = .ok true ∧ t.leasedBy ≠ .str L.ourKey

/-- What makes a task claimable, when the leases could be compared. -/
theorem mem_claimable {L : TaskLedger} {now : ℚ} {tasks out : List Task}
    (h : L.claimable now tasks = .ok out) (t : Task) :
    t ∈ out ↔ t ∈ tasks ∧ Offered L now t := by
  induction tasks generalizing out with
  | nil =>
      simp only [TaskLedger.claimable, Except.ok.injEq] at h
      rw [← h]
      simp only [List.not_mem_nil, false_and]
  | cons t' ts ih =>
      obtain ⟨st, hst⟩ : ∃ st, t'.status = st := ⟨_, rfl⟩
      cases st with
      | pending =>
          simp only [TaskLedger.claimable, hst] at h
          exact mem_taken ih (Or.inl hst) h
      | inProgress =>
          simp only [TaskLedger.claimable, hst] at h
          obtain ⟨verdict, hlt⟩ : ∃ verdict, PyVal.lt t'.leaseExpires (.float now) = verdict :=
            ⟨_, rfl⟩
          cases verdict with
          | error e =>
              simp only [hlt] at h
              simp only [reduceCtorEq] at h
          | ok expired =>
              simp only [hlt] at h
              by_cases hc : expired = true ∧ t'.leasedBy ≠ .str L.ourKey
              · rw [if_pos hc] at h
                exact mem_taken ih (Or.inr ⟨hst, by rw [hlt, hc.1], hc.2⟩) h
              · rw [if_neg hc] at h
                refine mem_skipped (ih h) (fun hyes => ?_)
                rcases hyes with hp | ⟨_, hexp, hother⟩
                · rw [hst] at hp
                  simp only [reduceCtorEq] at hp
                · rw [hlt, Except.ok.injEq] at hexp
                  exact hc ⟨hexp, hother⟩
      -- No other status is one of the two that the test asks for.
      | completed =>
          simp only [TaskLedger.claimable, hst] at h
          refine mem_skipped (ih h) (fun hyes => ?_)
          rcases hyes with hp | hp
          · rw [hst] at hp
            simp only [reduceCtorEq] at hp
          · rw [hst] at hp
            exact absurd hp.1 (by simp only [reduceCtorEq, not_false_eq_true])
      | other v hv =>
          simp only [TaskLedger.claimable, hst] at h
          refine mem_skipped (ih h) (fun hyes => ?_)
          rcases hyes with hp | hp
          · rw [hst] at hp
            simp only [reduceCtorEq] at hp
          · rw [hst] at hp
            exact absurd hp.1 (by simp only [reduceCtorEq, not_false_eq_true])

/-! ## Capable peers -/

/-- When every alive peer's capabilities can be compared, the loop finds a
    capable one if there is one. -/
theorem anyCapable_ok (requiredCaps : List PyStr) (peers : List PeerInfo)
    (hok : ∀ p ∈ peers, ∃ b, hasAll requiredCaps p.capabilities = .ok b) :
    ∃ b, anyCapable requiredCaps peers = .ok b ∧ (b = true ↔
      ∃ p ∈ peers, p.status = .alive ∧ hasAll requiredCaps p.capabilities = .ok true) := by
  -- Dead peers are passed over, and the first capable one ends the search.
  induction peers with
  | nil => exact ⟨false, rfl, by simp only [Bool.false_eq_true, List.not_mem_nil, false_and,
      exists_false]⟩
  | cons p ps ih =>
      rcases ih (fun p' hp' => hok p' (List.mem_cons_of_mem _ hp')) with ⟨b, hb, hiff⟩
      rcases hok p (List.mem_cons_self ..) with ⟨c, hc⟩
      by_cases halive : p.status = .alive
      · cases c with
        | true =>
            refine ⟨true, by simp only [anyCapable, if_pos halive, hc], ?_⟩
            exact iff_of_true rfl ⟨p, List.mem_cons_self .., halive, hc⟩
        | false =>
            refine ⟨b, by simp only [anyCapable, if_pos halive, hc, hb], ?_⟩
            rw [hiff]
            constructor
            · rintro ⟨p', hp', hrest⟩
              exact ⟨p', List.mem_cons_of_mem _ hp', hrest⟩
            · rintro ⟨p', hp', hrest⟩
              rcases List.mem_cons.mp hp' with hhead | htail
              · rw [hhead, hc] at hrest
                exact (nomatch hrest.2)
              · exact ⟨p', htail, hrest⟩
      · refine ⟨b, by simp only [anyCapable, if_neg halive, hb], ?_⟩
        rw [hiff]
        constructor
        · rintro ⟨p', hp', hrest⟩
          exact ⟨p', List.mem_cons_of_mem _ hp', hrest⟩
        · rintro ⟨p', hp', hrest⟩
          rcases List.mem_cons.mp hp' with hhead | htail
          · rw [hhead] at hrest
            exact absurd hrest.1 halive
          · exact ⟨p', htail, hrest⟩

/-- Where every alive peer's capabilities are strings, the comparison is one of
    sets. -/
theorem hasAll_str (requiredCaps caps : List PyStr) :
    hasAll requiredCaps (caps.map PyVal.str) = .ok (decide (∀ c ∈ requiredCaps, c ∈ caps)) := by
  have hkeys : ∀ cs : List PyStr, (cs.map PyVal.str).mapM hashKey = .ok (cs.map Key.str) := by
    intro cs
    induction cs with
    | nil => rfl
    | cons c cs ih =>
        rw [List.map_cons, List.mapM_cons, ih]
        rfl
  unfold hasAll
  rw [hkeys]
  refine congrArg Except.ok ?_
  rw [Bool.eq_iff_iff, List.all_eq_true, decide_eq_true_iff]
  simp only [decide_eq_true_eq, List.mem_map, Key.str.injEq, exists_eq_right]

end WhisperNet
