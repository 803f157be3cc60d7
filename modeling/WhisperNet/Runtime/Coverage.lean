import WhisperNet.Runtime.Scan

/-!
# Who Rescues the Tasks of a Dead Home

A cluster of nodes with home shards `1..N`, some of them confirmed dead, and
survivors that all know this and have quorum. A task whose home is dead is
nobody's own, so it is left to the designated replica of its shard and to the
rule of last resort. The replica is computed modulo the number of shards, which
is six in every node however many there are. The rule of last resort defers to
an alive peer that has all of one's own capabilities.

So nodes with equal capabilities defer to one another, and a task whose home
and whose replica are both dead is left to no one. `covered_iff` says exactly
which tasks are selected by some survivor.

## Main definitions

* `Cell`: The size, keys and capabilities of a cluster, and who is dead.
* `Cell.Survivor`: A node that is not dead.
* `Cell.SharedView`: A table with the true status of every other node.
* `Cell.Waiting`: A task that is pending, or leased by a dead node until now.

## Theorems

* `homeDead_of_view`: The home of the task is seen dead.
* `noCapablePeer_of_view`: Whom a survivor defers to.
* `covered_iff`: Some survivor selects the task exactly when the replica of its
  home survives or some survivor has no one to defer to.
* `Deferring.orphan`: Four survivors that all defer.
-/

namespace WhisperNet

open MembershipLayer AgentRuntime TaskLedger

/-- A cluster: node `i` of `1..size` has home shard `i`. -/
structure Cell where
  size : Nat
  key : Nat → PyStr
  caps : Nat → List PyStr
  dead : Nat → Bool

namespace Cell

variable (C : Cell)

def Node (i : Nat) : Prop := 1 ≤ i ∧ i ≤ C.size

def Survivor (i : Nat) : Prop := C.Node i ∧ C.dead i = false

instance (i : Nat) : Decidable (C.Node i) := inferInstanceAs (Decidable (_ ∧ _))

/-- The runtime of node `i`, with the number of shards that `node.py` leaves at
    its default. -/
def runtime (i : Nat) : AgentRuntime := { shardId := i, capabilities := C.caps i }

/-- What node `i` should know of node `j`. -/
def Known (j : Nat) (p : PeerInfo) : Prop :=
  p.shardId = some (j : Int) ∧ p.status = (if C.dead j then .dead else .alive) ∧
    p.capabilities = (C.caps j).map PyVal.str

/-- The membership view all survivors share, at node `i`: every other node, and
    nobody else. -/
structure SharedView (i : Nat) (M : MembershipLayer) : Prop where
  configured : M.clusterSize = C.size
  sound : ∀ k p, M.peers.get? k = some p → ∃ j, C.Node j ∧ j ≠ i ∧ k = .str (C.key j) ∧ C.Known j p
  complete : ∀ j, C.Node j → j ≠ i → ∃ p, M.peers.get? (.str (C.key j)) = some p ∧ C.Known j p

/-- A record that waits for a node to take it: pending, or in progress under an
    expired lease of a dead node. -/
def Waiting (now : ℚ) (t : Task) : Prop :=
  t.status = .pending ∨ t.status = .inProgress ∧ PyVal.lt t.leaseExpires (.float now) = .ok true ∧
    ∃ j, C.Node j ∧ C.dead j = true ∧ t.leasedBy = .str (C.key j)

/-- Node `i` has nobody to defer to: no capabilities, or one that every other
    survivor lacks some of. -/
def Undeferring (i : Nat) : Prop :=
  C.caps i = [] ∨ ∀ j, C.Survivor j → j ≠ i → ¬ ∀ c ∈ C.caps i, c ∈ C.caps j

end Cell

section Coverage

variable {C : Cell}

/-- The table has no peer with the shard of a dead home that is alive. -/
theorem homeDead_of_view {i h : Nat} {M : MembershipLayer} (hview : C.SharedView i M)
    (hdead : C.dead h = true) {t : Task} (ht : t.shardId = .int h) :
    homeDead (some M) t = true := by
  refine decide_eq_true ((getPeerForShard_eq_none M t.shardId (fun k hk hnone => ?_)).mpr ?_)
  · rcases (knows_iff M k).mp hk with ⟨p, hp⟩
    rcases hview.sound k p hp with ⟨j, _, _, hkey, _⟩
    rw [hnone] at hkey
    simp only [reduceCtorEq] at hkey
  · intro k p hp hshard halive
    rcases hview.sound k p hp with ⟨j, _, _, _, hknown⟩
    rw [hknown.1, ht] at hshard
    have hj : (j : Int) = h := (pyEq_int _ _).mp hshard
    have hjh : j = h := by omega
    rw [hknown.2.1, hjh, if_pos hdead] at halive
    simp only [reduceCtorEq] at halive

/-- A survivor finds a capable peer exactly among the other survivors. -/
theorem noCapablePeer_of_view {i : Nat} {M : MembershipLayer} (hview : C.SharedView i M) :
    ∃ b, (C.runtime i).noCapablePeer (some M) = .ok b ∧ (b = true ↔ C.Undeferring i) := by
  unfold noCapablePeer Cell.Undeferring
  have hcaps : (C.runtime i).capabilities = C.caps i := rfl
  -- A node without capabilities defers to nobody.
  by_cases hempty : C.caps i = []
  · refine ⟨true, ?_, iff_of_true rfl (Or.inl hempty)⟩
    rw [hcaps, if_pos hempty]
  · have hvals : ∀ p ∈ M.peers.values, ∃ j, C.Node j ∧ j ≠ i ∧ C.Known j p := by
      intro p hp
      rcases (Dict.mem_values M.peers p).mp hp with ⟨k, hk⟩
      rcases hview.sound k p hk with ⟨j, hj, hji, _, hknown⟩
      exact ⟨j, hj, hji, hknown⟩
    rcases anyCapable_ok (C.caps i) M.peers.values (fun p hp => by
      rcases hvals p hp with ⟨j, _, _, hknown⟩
      exact ⟨_, by rw [hknown.2.2]; exact hasAll_str _ _⟩) with ⟨b, hb, hiff⟩
    refine ⟨!b, ?_, ?_⟩
    · rw [hcaps, if_neg hempty, capablePeerAlive]
      simp only [if_neg hempty, hb]
      rfl
    · rw [Bool.not_eq_true', or_iff_right hempty, Bool.eq_false_iff, ne_eq, hiff]
      constructor
      · intro hnone j hj hji hall
        rcases hview.complete j hj.1 hji with ⟨p, hp, hknown⟩
        refine hnone ⟨p, (Dict.mem_values M.peers p).mpr ⟨_, hp⟩, ?_, ?_⟩
        · rw [hknown.2.1, hj.2]
          rfl
        · rw [hknown.2.2, hasAll_str, decide_eq_true hall]
      · rintro hall ⟨p, hp, halive, hcap⟩
        rcases hvals p hp with ⟨j, hj, hji, hknown⟩
        have hsurvives : C.dead j = false := by
          cases hd : C.dead j with
          | false => rfl
          | true =>
              rw [hknown.2.1, hd] at halive
              exact (nomatch halive)
        rw [hknown.2.2, hasAll_str, Except.ok.injEq, decide_eq_true_iff] at hcap
        exact hall j ⟨hj, hsurvives⟩ hji hcap

/-- One survivor selects the task exactly when it is the replica of the home or
    has nobody to defer to. -/
theorem selects_iff {i h : Nat} {M : MembershipLayer} {L : TaskLedger} {now : ℚ} {t : Task}
    (hi : C.Survivor i) (hview : C.SharedView i M) (hquorum : M.hasQuorum = true)
    (hdead : C.dead h = true) (hshard : t.shardId = .int h)
    (hclaim : ∃ ts, L.getClaimableTasks now = .ok ts ∧ t ∈ ts) :
    (∃ sel, (C.runtime i).selectFrom (some M) L now = .ok sel ∧ t ∈ sel) ↔
      ((i : Int) - 2) % 6 + 1 = h ∨ C.Undeferring i := by
  rcases hclaim with ⟨ts, hts, ht⟩
  have hfrom : (C.runtime i).selectFrom (some M) L now = (C.runtime i).select (some M) ts := by
    simp only [selectFrom, hts]
  rcases noCapablePeer_of_view hview with ⟨b, hb, hiff⟩
  -- Comparing capabilities does not raise here, so the selection returns.
  have hret : ∀ us, ∃ out, (C.runtime i).generalOrphaned (some M) us = .ok out := by
    intro us
    induction us with
    | nil => exact ⟨[], rfl⟩
    | cons u us ih =>
        rcases ih with ⟨out, hout⟩
        unfold generalOrphaned
        rw [hb]
        split
        · cases b with
          | true => exact ⟨u :: out, by simp only [hout]; rfl⟩
          | false => exact ⟨out, hout⟩
        · exact ⟨out, hout⟩
  rcases hret ts with ⟨general, hgeneral⟩
  obtain ⟨sel, hsel⟩ : ∃ sel, (C.runtime i).select (some M) ts = .ok sel := by
    unfold select
    rw [hgeneral]
    exact ⟨_, rfl⟩
  have hne : i ≠ h := by
    intro hc
    have hlive := hi.2
    rw [hc, hdead] at hlive
    simp only [reduceCtorEq] at hlive
  have hhome : (C.runtime i).isHome t = false := by
    rw [isHome, hshard, Bool.eq_false_iff, ne_eq, pyEq_int]
    intro hc
    have hhi : (h : Int) = i := hc
    omega
  have hrep : (C.runtime i).isReplica t = true ↔ ((i : Int) - 2) % 6 + 1 = h := by
    rw [isReplica, hshard, pyEq_int]
    exact ⟨fun hc => hc.symm, fun hc => hc.symm⟩
  rw [hfrom, hsel]
  simp only [Except.ok.injEq, exists_eq_left']
  rw [mem_select hsel, hhome, hrep, hb, Except.ok.injEq, hiff]
  simp only [Bool.false_eq_true, true_and, false_or]
  exact ⟨fun hc => hc.2.2.2, fun hc => ⟨ht, hquorum, homeDead_of_view hview hdead hshard, hc⟩⟩

/-- With all survivors sharing the view and having quorum, a waiting task whose
    home is dead is selected by some survivor if and only if its replica
    survives or some survivor has nobody to defer to. -/
theorem covered_iff (C : Cell) (hkeys : ∀ i j, C.Node i → C.Node j → C.key i = C.key j → i = j)
    (view : Nat → MembershipLayer) (hview : ∀ i, C.Survivor i → C.SharedView i (view i))
    (hquorum : ∀ i, C.Survivor i → (view i).hasQuorum = true)
    (ledger : Nat → TaskLedger) (hledger : ∀ i, C.Survivor i → (ledger i).ourKey = C.key i)
    (now : ℚ) (hreads : ∀ i, C.Survivor i → ∃ ts, (ledger i).getClaimableTasks now = .ok ts)
    (h : Nat) (hdead : C.dead h = true) (t : Nat → Task)
    (hshard : ∀ i, C.Survivor i → (t i).shardId = .int h)
    (hwaits : ∀ i, C.Survivor i → t i ∈ (ledger i).tasks.values ∧ C.Waiting now (t i)) :
    (∃ i, C.Survivor i ∧ ∃ sel,
      (C.runtime i).selectFrom (some (view i)) (ledger i) now = .ok sel ∧ t i ∈ sel) ↔
    ∃ i, C.Survivor i ∧ (((i : Int) - 2) % 6 + 1 = h ∨ C.Undeferring i) := by
  have hclaim : ∀ i, C.Survivor i → ∃ ts, (ledger i).getClaimableTasks now = .ok ts ∧ t i ∈ ts := by
    intro i hi
    rcases hreads i hi with ⟨ts, hts⟩
    refine ⟨ts, hts, (mem_claimable hts (t i)).mpr ⟨(hwaits i hi).1, ?_⟩⟩
    rcases (hwaits i hi).2 with hpending | ⟨hprog, hexp, j, hj, hjdead, hholder⟩
    · exact Or.inl hpending
    · refine Or.inr ⟨hprog, hexp, fun hc => ?_⟩
      -- The dead holder is not the survivor itself.
      rw [hholder, hledger i hi, PyVal.str.injEq] at hc
      rw [hkeys j i hj hi.1 hc, hi.2] at hjdead
      simp only [reduceCtorEq] at hjdead
  constructor
  · rintro ⟨i, hi, hsel⟩
    exact ⟨i, hi, (selects_iff hi (hview i hi) (hquorum i hi) hdead (hshard i hi)
      (hclaim i hi)).mp hsel⟩
  · rintro ⟨i, hi, hcond⟩
    exact ⟨i, hi, (selects_iff hi (hview i hi) (hquorum i hi) hdead (hshard i hi)
      (hclaim i hi)).mpr hcond⟩

end Coverage

/-! ## Six nodes of the same capability -/

namespace Deferring

def key (i : Nat) : PyStr := lit (["", "a", "b", "c", "d", "e", "f"].getD i "")

/-- Six nodes that can all search, of which two next to each other are dead. -/
def cell : Cell where
  size := 6
  key := key
  caps := fun _ => [lit "search"]
  dead := fun j => j = 3 ∨ j = 4

/-- What every survivor knows of node `j`. -/
def info (j : Nat) : PeerInfo where
  status := if cell.dead j then .dead else .alive
  lastSeen := 0
  shardId := some (j : Int)
  capabilities := [.str (lit "search")]

/-- The table of node `i`, filled from its list of peers. -/
def peers (i : Nat) : Dict Key PeerInfo :=
  ([1, 2, 3, 4, 5, 6].filter (fun j => j ≠ i)).foldl (fun d j => d.set (.str (key j)) (info j))
    Dict.empty

def view (i : Nat) : MembershipLayer where
  ourKey := key i
  ourShardId := i
  clusterSize := 6
  peers := peers i

/-- A pending task of a shard. -/
def job (h : Nat) : Task where
  taskId := .str (lit "t")
  payload := .str (lit "p")
  shardId := .int h
  status := .pending
  leasedBy := .none
  leaseExpires := .none
  result := .none
  createdAt := .float 0

def ledger (h i : Nat) : TaskLedger where
  ourKey := key i
  tasks := Dict.empty.set (.str (lit "t")) (job h)

theorem node_cases (i : Nat) (hi : cell.Node i) : i ∈ [1, 2, 3, 4, 5, 6] := by
  rcases hi with ⟨h1, h6⟩
  have hsize : cell.size = 6 := rfl
  simp only [List.mem_cons, List.not_mem_nil, or_false]
  omega

theorem keys_distinct (i j : Nat) (hi : cell.Node i) (hj : cell.Node j)
    (h : cell.key i = cell.key j) : i = j := by
  have hall : ∀ i ∈ [1, 2, 3, 4, 5, 6], ∀ j ∈ [1, 2, 3, 4, 5, 6], key i = key j → i = j := by
    decide +kernel
  exact hall i (node_cases i hi) j (node_cases j hj) h

/-- The six tables are the ones the nodes should share. -/
theorem shared (i : Nat) (hi : cell.Node i) : cell.SharedView i (view i) := by
  have hentries : ∀ i ∈ [1, 2, 3, 4, 5, 6], ∀ e ∈ (peers i).entries,
      ∃ j ∈ [1, 2, 3, 4, 5, 6], j ≠ i ∧ e = (.str (key j), info j) := by decide +kernel
  have hfound : ∀ i ∈ [1, 2, 3, 4, 5, 6], ∀ j ∈ [1, 2, 3, 4, 5, 6], j ≠ i →
      (peers i).get? (.str (key j)) = some (info j) := by decide +kernel
  have hnode : ∀ j ∈ [1, 2, 3, 4, 5, 6], cell.Node j := by decide +kernel
  have hknown : ∀ j, cell.Known j (info j) := fun j => ⟨rfl, rfl, rfl⟩
  refine ⟨rfl, fun k p hp => ?_, fun j hj hji => ?_⟩
  · rcases hentries i (node_cases i hi) (k, p)
      ((Dict.mem_entries_iff (peers i) k p).mpr hp) with ⟨j, hj, hji, hentry⟩
    rcases Prod.ext_iff.mp hentry with ⟨hk, hinfo⟩
    exact ⟨j, hnode j hj, hji, hk, by rw [show p = info j from hinfo]; exact hknown j⟩
  · exact ⟨info j, hfound i (node_cases i hi) j (node_cases j hj) hji, hknown j⟩

theorem quorum (i : Nat) (hi : cell.Survivor i) : (view i).hasQuorum = true := by
  have hall : ∀ i ∈ [1, 2, 3, 4, 5, 6], cell.dead i = false → (view i).hasQuorum = true := by
    decide +kernel
  exact hall i (node_cases i hi.1) hi.2

theorem reads (h i : Nat) : (ledger h i).getClaimableTasks 9 = .ok [job h] := rfl

/-- The replica of shard 4 is node 5, which survives. -/
theorem rescued : ∃ i, cell.Survivor i ∧ ∃ sel,
    (cell.runtime i).selectFrom (some (view i)) (ledger 4 i) 9 = .ok sel ∧ job 4 ∈ sel :=
  (covered_iff cell keys_distinct view (fun i hi => shared i hi.1) quorum (ledger 4)
    (fun _ _ => rfl) 9 (fun i _ => ⟨_, reads 4 i⟩) 4 rfl (fun _ => job 4) (fun _ _ => rfl)
    (fun _ _ => ⟨List.mem_singleton.mpr rfl, Or.inl rfl⟩)).mpr
    ⟨5, ⟨by decide, rfl⟩, Or.inl (by decide)⟩

/-- The replica of shard 3 is node 4, which is dead as well, and every survivor
    defers to another one. -/
theorem orphan : (∀ i, cell.Survivor i → cell.SharedView i (view i)) ∧
    (∀ i, cell.Survivor i → (view i).hasQuorum = true) ∧ cell.dead 3 = true ∧
    ¬ ∃ i, cell.Survivor i ∧ ∃ sel,
      (cell.runtime i).selectFrom (some (view i)) (ledger 3 i) 9 = .ok sel ∧ job 3 ∈ sel := by
  refine ⟨fun i hi => shared i hi.1, quorum, rfl, ?_⟩
  rintro ⟨i, hi, sel, hsel, hmem⟩
  have hnone : ∀ i ∈ [1, 2, 3, 4, 5, 6], cell.dead i = false →
      (cell.runtime i).selectFrom (some (view i)) (ledger 3 i) 9 = .ok [] := by decide +kernel
  rw [hnone i (node_cases i hi.1) hi.2, Except.ok.injEq] at hsel
  rw [← hsel] at hmem
  exact List.not_mem_nil hmem

end Deferring

end WhisperNet
