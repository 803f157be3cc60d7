import WhisperNet.Crypto.Reference
import WhisperNet.Ledger.Atomicity
import WhisperNet.Ledger.Calls
import WhisperNet.Lib.Machine
import WhisperNet.Runtime.Execute
import WhisperNet.Runtime.Scan

/-!
# Which Homes a Scan Takes for Dead

The scan leaves a task of another shard alone while its home node is alive, and
the test for that asks for an alive peer with the shard. So a home that is
suspected, and one that no peer has been heard of with, passes for dead.

A scan selects its tasks from the ledger and the peer table of one moment and
claims them one after another, while other threads change the ledger and start
executions. Each claim of a foreign task rests on a quorum and on no alive home.
It rests on a confirmed death exactly if the home is known and not suspected.

A claim counts from the moment the lease is written. What raises behind that ends
the scan, and the lease stays: an id that is no text cannot be sliced for the log
line, and a peer under a number cannot be sent to.

## Main definitions

* `claimRaw`: A claim under an id of any type.
* `writesLease`: Whether a claim gets as far as the lease.
* `HomeOf`: A peer has the home shard of a task.
* `ConfirmedDead`: What the documentation asks for before a rescue.
* `Certain`: The home of a task is known, and nobody has doubts about it.
* `Dispatching`: A scan that has selected its tasks, and what it has claimed.
* `Dispatching.step`: One attempt, or a change of the ledger meanwhile.
* `Dispatching.Lawful`: Every foreign task claimed was of a dead home.
* `Dispatching.Justified`: No foreign task that can be claimed has a doubtful
  home.

## Theorems

* `claimRaw_leased`, `claimRaw_same`: What a claim leaves behind.
* `confirmedDead_iff`: What is left to check of a task without an alive home.
* `Dispatching.step_lawful_iff`: One step.
* `Dispatching.lawful_iff`: When a scan claims the tasks of dead homes only.
* `Suspected.preempted`: A home that is merely suspected.
-/

namespace WhisperNet

open MembershipLayer AgentRuntime TaskLedger

/-! ## Claims -/

instance (task : Task) (now : ℚ) : Decidable (Free task now) :=
  decidable_of_iff (task.status ≠ .completed ∧
      (task.status = .inProgress → PyVal.lt task.leaseExpires (.float now) = .ok true))
    ⟨fun h => ⟨h.1, h.2⟩, fun h => ⟨h.unfinished, h.expired⟩⟩

namespace TaskLedger

/-- The rest of `claim_task` for a free task under an id that is no text. The log line
    slices the id, behind everything else. -/
def claimFreeRaw (L : TaskLedger) (texts : Texts) (taskId : PyVal) (k : Key) (task : Task)
    (now : ℚ) : Outcome Bool :=
  let task := { task with
    status := .inProgress
    leasedBy := .str L.ourKey
    leaseExpires := .float (now + L.leaseDuration)
    claimedAt := .float now }
  match digest16 (commitmentText L.ourKey (texts.ofVal taskId) now) with
  | .error e => { ret := .error e, ledger := { L with tasks := L.tasks.set k task } }
  | .ok commitment =>
    let task := { task with commitment := commitment }
    match task.version.incr with
    | .error e => { ret := .error e, ledger := { L with tasks := L.tasks.set k task } }
    | .ok v =>
      let task := { task with version := v }
      { ret := .error .typeError
        ledger := { L with tasks := L.tasks.set k task }.persist
        out := [.gossip task] }

/-- `claim_task` for an id of any type. -/
def claimRaw (L : TaskLedger) (texts : Texts) (taskId : PyVal) (now : ℚ) : Outcome Bool :=
  match taskId with
  | .str taskId => L.claimTask taskId now
  | taskId => match hashKey taskId with
    | .error e => { ret := .error e, ledger := L }
    | .ok k => L.claimUnder k now (fun L' task => L'.claimFreeRaw texts taskId k task now)

/-- Whether `claim_task` gets as far as the lease: the record is there, and free. -/
def writesLease (L : TaskLedger) (k : Key) (now : ℚ) : Bool :=
  match L.tasks.get? k with
  | none => false
  | some task => Free task now

theorem writesLease_iff (L : TaskLedger) (k : Key) (now : ℚ) :
    L.writesLease k now = true ↔ ∃ task, L.tasks.get? k = some task ∧ Free task now := by
  unfold writesLease
  cases L.tasks.get? k with
  | none => simp only [Bool.false_eq_true, reduceCtorEq, false_and, exists_false]
  | some task => simp only [decide_eq_true_iff, Option.some.injEq, exists_eq_left']

/-- The lease is under the key of the node, whatever is raised behind it. -/
theorem claimFreeRaw_leased (L : TaskLedger) (texts : Texts) (taskId : PyVal) (k : Key)
    (task : Task) (now : ℚ) : ∃ new,
      (L.claimFreeRaw texts taskId k task now).ledger.tasks.get? k = some new ∧
        L.isMine new = true := by
  unfold claimFreeRaw
  cases digest16 (commitmentText L.ourKey (texts.ofVal taskId) now) with
  | error e => exact ⟨_, Dict.get?_set_self .., (isMine_iff _ _).mpr ⟨rfl, rfl⟩⟩
  | ok c =>
      cases hv : task.version.incr with
      | error e =>
          simp only [hv]
          exact ⟨_, Dict.get?_set_self .., (isMine_iff _ _).mpr ⟨rfl, rfl⟩⟩
      | ok v =>
          simp only [hv]
          exact ⟨_, Dict.get?_set_self .., (isMine_iff _ _).mpr ⟨rfl, rfl⟩⟩

/-- Under any id that can be a key a claim is made of the tests and a writing of the
    lease. -/
theorem claimRaw_under (L : TaskLedger) (texts : Texts) {taskId : PyVal} {k : Key} (now : ℚ)
    (hkey : hashKey taskId = .ok k) : ∃ write,
      L.claimRaw texts taskId now = L.claimUnder k now write ∧ ∀ (L' : TaskLedger) (task : Task),
        ∃ new, (write L' task).ledger.tasks.get? k = some new ∧ L'.isMine new = true := by
  -- An id that is a text goes through the usual claim, any other through the raw one.
  have hraw : (∃ s, taskId = .str s) ∨ L.claimRaw texts taskId now =
      L.claimUnder k now (fun L' task => L'.claimFreeRaw texts taskId k task now) := by
    cases taskId with
    | str s => exact Or.inl ⟨s, rfl⟩
    | none => exact Or.inr (by simp only [claimRaw, hkey])
    | bool b => exact Or.inr (by simp only [claimRaw, hkey])
    | int n => exact Or.inr (by simp only [claimRaw, hkey])
    | float q => exact Or.inr (by simp only [claimRaw, hkey])
    | list xs => cases hkey
    | dict kvs => cases hkey
  rcases hraw with ⟨s, hs⟩ | hraw
  · rw [hs, hashKey, Except.ok.injEq] at hkey
    rw [hs, ← hkey]
    refine ⟨fun L' task => L'.claimFree s task now, rfl, fun L' task => ?_⟩
    rcases claimFree_assigns L' s task now with ⟨_, new, hnew, hmine⟩
    rw [hnew]
    exact ⟨new, Dict.get?_set_self .., hmine⟩
  · exact ⟨_, hraw, fun L' task => L'.claimFreeRaw_leased texts taskId k task now⟩

/-- A claim that gets as far as the lease leaves the record in progress under the key
    of the node. -/
theorem claimRaw_leased {L : TaskLedger} (texts : Texts) {taskId : PyVal} {k : Key} {now : ℚ}
    (hkey : hashKey taskId = .ok k) (h : L.writesLease k now = true) : ∃ new,
      (L.claimRaw texts taskId now).ledger.tasks.get? k = some new ∧ L.isMine new = true := by
  rcases (L.writesLease_iff k now).mp h with ⟨task, hf, hfree⟩
  rcases L.claimRaw_under texts now hkey with ⟨write, hclaim, hwrite⟩
  rw [hclaim, claimUnder_free write hf hfree]
  rcases hwrite (L.counted task) task with ⟨new, hnew, hmine⟩
  rw [isMine_iff, (counted_fields L task).2, ← isMine_iff] at hmine
  exact ⟨new, hnew, hmine⟩

/-- Any other claim leaves the ledger alone. -/
theorem claimRaw_same {L : TaskLedger} (texts : Texts) {taskId : PyVal} {k : Key} {now : ℚ}
    (hkey : hashKey taskId = .ok k) (h : ¬ L.writesLease k now = true) :
    (L.claimRaw texts taskId now).ledger = L := by
  rcases L.claimRaw_under texts now hkey with ⟨write, hclaim, _⟩
  rw [hclaim]
  exact (claimUnder_not_free write
    (fun task hf hfree => h ((L.writesLease_iff k now).mpr ⟨task, hf, hfree⟩))).1

end TaskLedger

/-! ## Homes -/

/-- The peer has the home shard of the task. -/
def HomeOf (p : PeerInfo) (t : Task) : Prop := pyEq (shardVal p.shardId) t.shardId = true

/-- There is a quorum, and the homes of the task are known and all dead. -/
def ConfirmedDead (M : MembershipLayer) (t : Task) : Prop :=
  M.hasQuorum = true ∧ (∃ k p, M.peers.get? k = some p ∧ HomeOf p t) ∧
    ∀ k p, M.peers.get? k = some p → HomeOf p t → p.status = .dead

/-- A home of the task is known and none is suspected. The key `None` stands in
    the table only for the item of a malformed `known_peers`, and a peer under it
    is not found by the lookup. -/
def Certain (M : MembershipLayer) (t : Task) : Prop :=
  (∃ k p, M.peers.get? k = some p ∧ HomeOf p t) ∧
    ∀ k p, M.peers.get? k = some p → HomeOf p t →
      p.status ≠ .suspected ∧ (p.status = .alive → k ≠ .none)

/-- Where the lookup finds nobody, no home under a proper key is alive. -/
theorem not_alive_of_getPeerForShard {M : MembershipLayer} {t : Task}
    (h : M.getPeerForShard t.shardId = .none)
    (hkeys : ∀ k p, M.peers.get? k = some p → HomeOf p t → p.status = .alive → k ≠ .none)
    {k : Key} {p : PeerInfo} (hp : M.peers.get? k = some p) (hhome : HomeOf p t) :
    p.status ≠ .alive := by
  intro halive
  unfold getPeerForShard at h
  cases hfind : M.peers.entries.find? (fun e =>
      pyEq (shardVal e.2.shardId) t.shardId && decide (e.2.status = .alive)) with
  | none =>
      have hno := List.find?_eq_none.mp hfind (k, p) ((Dict.mem_entries_iff M.peers k p).mpr hp)
      rw [show pyEq (shardVal p.shardId) t.shardId = true from hhome, decide_eq_true halive] at hno
      exact hno rfl
  -- The lookup answers with the key it finds, which is none only for the key none.
  | some e =>
      rw [hfind] at h
      have hfound := List.find?_some hfind
      rw [Bool.and_eq_true, decide_eq_true_iff] at hfound
      have hget := (Dict.mem_entries_iff M.peers e.1 e.2).mp (List.mem_of_find?_eq_some hfind)
      exact hkeys e.1 e.2 hget hfound.1 hfound.2 ((toVal_eq_none e.1).mp h)

/-- Of a task the scan would rescue, only the doubts are left to check. -/
theorem confirmedDead_iff {M : MembershipLayer} {t : Task} (hquorum : M.hasQuorum = true)
    (hnone : M.getPeerForShard t.shardId = .none) : ConfirmedDead M t ↔ Certain M t := by
  constructor
  · rintro ⟨_, hknown, hdead⟩
    refine ⟨hknown, fun k p hp hhome => ?_⟩
    rw [hdead k p hp hhome]
    exact ⟨by simp only [ne_eq, reduceCtorEq, not_false_eq_true],
      fun hc => absurd hc (by simp only [reduceCtorEq, not_false_eq_true])⟩
  · rintro ⟨hknown, hsure⟩
    refine ⟨hquorum, hknown, fun k p hp hhome => ?_⟩
    have halive := not_alive_of_getPeerForShard hnone
      (fun k p hp hhome => (hsure k p hp hhome).2) hp hhome
    have hsuspected := (hsure k p hp hhome).1
    -- Not alive and not suspected leaves one status.
    cases hst : p.status with
    | alive => exact absurd hst halive
    | suspected => exact absurd hst hsuspected
    | dead => rfl

/-! ## A scan -/

/-- A scan in its loop over the selected tasks, and what it has claimed. -/
structure Dispatching where
  ledger : TaskLedger
  tasks : List Task
  claimed : List Task

/-- The next task, with what executes at that moment and whether the gossip of a claim
    returns, or anything that another thread does to the ledger. -/
inductive DispatchEvent
  | attempt (executing : List PyStr) (now : ℚ) (sends : Bool)
  | ledger (op : Op)

namespace Dispatching

/-- `_scan` after the renewals: the selection. If it raises, nothing is claimed. -/
def start (R : AgentRuntime) (M : MembershipLayer) (L : TaskLedger) (now : ℚ) : Dispatching where
  ledger := L
  tasks := match R.selectFrom (some M) L now with
    | .ok tasks => tasks
    | .error _ => []
  claimed := []

/-- One round of the loop. An id that cannot be hashed raises before the claim, and
    what a claim raises ends the scan too. -/
def step (P : Primitives) (texts : Texts) (s : Dispatching) : DispatchEvent → Option Dispatching
  | .attempt executing now sends =>
    match s.tasks with
    | [] => none
    | t :: ts => match hashKey t.taskId with
      | .error _ => some { s with tasks := [] }
      | .ok k =>
        if k ∈ executing.map Key.str then some { s with tasks := ts }
        else
          let o := s.ledger.claimRaw texts t.taskId now
          some {
            ledger := o.ledger
            tasks := match o.sent sends with
              | .ok _ => ts
              | .error _ => []
            claimed := if s.ledger.writesLease k now then s.claimed ++ [t] else s.claimed }
  | .ledger op => some { s with ledger := op.apply P s.ledger }

/-- Every task of another shard that was claimed is one of a dead home. -/
def Lawful (R : AgentRuntime) (M : MembershipLayer) (s : Dispatching) : Prop :=
  ∀ t ∈ s.claimed, R.isHome t = false → ConfirmedDead M t

/-- A task that does not execute and whose record is free for a claim. -/
def Claimable (s : Dispatching) (executing : List PyStr) (now : ℚ) (t : Task) : Prop :=
  ∃ k, hashKey t.taskId = .ok k ∧ k ∉ executing.map Key.str ∧
    ∃ task, s.ledger.tasks.get? k = some task ∧ Free task now

/-- The next task, if it is one of another shard and can be claimed, has a home
    without doubts. -/
def Justified (R : AgentRuntime) (M : MembershipLayer) (s : Dispatching) : DispatchEvent → Prop
  | .attempt executing now _ => ∀ t ts, s.tasks = t :: ts → R.isHome t = false →
      s.Claimable executing now t → Certain M t
  | .ledger _ => True

/-- What is left was selected with a quorum and without an alive home. -/
def Selected (R : AgentRuntime) (M : MembershipLayer) (s : Dispatching) : Prop :=
  ∀ t ∈ s.tasks, R.isHome t = false → M.hasQuorum = true ∧ M.getPeerForShard t.shardId = .none

variable {P : Primitives} {texts : Texts} {R : AgentRuntime} {M : MembershipLayer}
  {s s' : Dispatching} {e : DispatchEvent}

theorem start_selected (R : AgentRuntime) (M : MembershipLayer) (L : TaskLedger) (now : ℚ) :
    Selected R M (start R M L now) := by
  intro t ht hhome
  unfold start at ht
  cases hsel : R.selectFrom (some M) L now with
  | error e =>
      rw [hsel] at ht
      exact absurd ht List.not_mem_nil
  | ok tasks =>
      rw [hsel] at ht
      -- The guards of the rescue are checked when the list is made.
      unfold selectFrom at hsel
      cases hclaimable : L.getClaimableTasks now with
      | error e =>
          rw [hclaimable] at hsel
          simp only [reduceCtorEq] at hsel
      | ok claimable =>
          rw [hclaimable] at hsel
          exact quorum_of_rescue hsel ht hhome

/-- An attempt claims the next task if that can be claimed. -/
theorem step_attempt {executing : List PyStr} {now : ℚ} {sends : Bool}
    (h : step P texts s (.attempt executing now sends) = some s') :
    ∃ t ts, s.tasks = t :: ts ∧ (∀ u ∈ s'.tasks, u ∈ ts) ∧
      (s.Claimable executing now t ∧ s'.claimed = s.claimed ++ [t] ∨
        ¬ s.Claimable executing now t ∧ s'.claimed = s.claimed) := by
  simp only [step] at h
  cases htasks : s.tasks with
  | nil =>
      rw [htasks] at h
      simp only [reduceCtorEq] at h
  | cons t ts =>
      rw [htasks] at h
      refine ⟨t, ts, rfl, ?_⟩
      unfold Claimable
      cases hkey : hashKey t.taskId with
      | error e =>
          simp only [hkey, Option.some.injEq] at h
          rw [← h]
          refine ⟨fun u hu => absurd hu List.not_mem_nil, Or.inr ⟨fun hc => ?_, rfl⟩⟩
          rcases hc with ⟨_, hsame, _⟩
          simp only [reduceCtorEq] at hsame
      | ok k =>
          simp only [hkey, Except.ok.injEq, exists_eq_left'] at h ⊢
          rw [← writesLease_iff]
          by_cases hbusy : k ∈ executing.map Key.str
          · rw [if_pos hbusy, Option.some.injEq] at h
            rw [← h]
            exact ⟨fun u hu => hu, Or.inr ⟨fun hc => hc.1 hbusy, rfl⟩⟩
          · rw [if_neg hbusy, Option.some.injEq] at h
            rw [← h]
            refine ⟨fun u hu => ?_, ?_⟩
            · -- The loop goes on with the rest, or ends.
              dsimp only at hu
              split at hu
              · exact hu
              · exact absurd hu List.not_mem_nil
            · by_cases hlease : s.ledger.writesLease k now = true
              · exact Or.inl ⟨⟨hbusy, hlease⟩, if_pos hlease⟩
              · exact Or.inr ⟨fun hc => hlease hc.2, if_neg hlease⟩

theorem step_selected (hs : Selected R M s) (h : step P texts s e = some s') : Selected R M s' := by
  cases e with
  | attempt executing now sends =>
      rcases step_attempt h with ⟨t, ts, htasks, hsub, _⟩
      intro u hu hhome
      refine hs u ?_ hhome
      rw [htasks]
      exact List.mem_cons_of_mem _ (hsub u hu)
  | ledger op =>
      simp only [step, Option.some.injEq] at h
      rw [← h]
      exact hs

theorem step_lawful_iff (hs : Selected R M s) (hlawful : Lawful R M s)
    (h : step P texts s e = some s') : Lawful R M s' ↔ Justified R M s e := by
  cases e with
  | attempt executing now sends =>
      rcases step_attempt h with ⟨t, ts, htasks, _, ⟨hcan, hclaimed⟩ | ⟨hcannot, hclaimed⟩⟩
      · unfold Lawful Justified
        rw [hclaimed, htasks]
        constructor
        · intro hafter u us hu hhome _
          rw [List.cons.injEq] at hu
          have hu' : R.isHome t = false := by rw [hu.1]; exact hhome
          have hsel := hs t (by rw [htasks]; exact List.mem_cons_self ..) hu'
          rw [← hu.1]
          refine (confirmedDead_iff hsel.1 hsel.2).mp (hafter t ?_ hu')
          exact List.mem_append_right _ (List.mem_singleton.mpr rfl)
        · intro hsure u hu hhome
          rcases List.mem_append.mp hu with hold | hnew
          · exact hlawful u hold hhome
          · rw [List.mem_singleton.mp hnew] at hhome ⊢
            have hsel := hs t (by rw [htasks]; exact List.mem_cons_self ..) hhome
            exact (confirmedDead_iff hsel.1 hsel.2).mpr (hsure t ts rfl hhome hcan)
      · -- A task that cannot be claimed is passed over, and the list stays.
        refine iff_of_true ?_ (fun u us hu _ hcan => ?_)
        · unfold Lawful
          rw [hclaimed]
          exact hlawful
        · rw [htasks, List.cons.injEq] at hu
          exact absurd (hu.1 ▸ hcan) hcannot
  | ledger op =>
      simp only [step, Option.some.injEq] at h
      rw [← h]
      exact iff_of_true hlawful trivial

/-- A scan claims foreign tasks of dead homes only if and only if every foreign
    task that it comes to and that can be claimed has a known home, and none
    that is suspected. -/
theorem lawful_iff (P : Primitives) (texts : Texts) (R : AgentRuntime) (M : MembershipLayer)
    (L : TaskLedger) (now : ℚ) (es : List DispatchEvent) :
    Machine.Throughout (step P texts) (Lawful R M) (start R M L now) es ↔
      Machine.Along (step P texts) (Justified R M) (start R M L now) es := by
  have hselected := start_selected R M L now
  have hstart : Lawful R M (start R M L now) := fun t ht => absurd ht List.not_mem_nil
  rw [Machine.throughout_congr (step P texts) (Selected R M) (Lawful R M)
    (fun u => Lawful R M u ∧ Selected R M u) (fun u e u' hu h => step_selected hu h)
    (fun u hu => (and_iff_left hu).symm) _ es hselected]
  refine Machine.throughout_iff_along (step P texts) _ (Justified R M) (fun u e u' hu h => ?_) _ es
    ⟨hstart, hselected⟩
  rw [and_iff_left (step_selected hu.2 h)]
  exact step_lawful_iff hu.2 hu.1 h

end Dispatching

/-! ## A home that is merely suspected -/

namespace Suspected

open Dispatching

def runtime : AgentRuntime := { shardId := 1 }

/-- Of three nodes, the home of shard 2 is suspected and the other peer alive. -/
def view : MembershipLayer where
  ourKey := lit "n"
  ourShardId := 1
  clusterSize := 3
  peers := (Dict.empty.set (.str (lit "a"))
    { status := .suspected, lastSeen := 0, shardId := some 2 }).set (.str (lit "b"))
    { lastSeen := 0, shardId := some 3 }

def job : Task where
  taskId := .str (lit "t")
  payload := .str (lit "p")
  shardId := .int 2
  status := .pending
  leasedBy := .none
  leaseExpires := .none
  result := .none
  createdAt := .float 0

def ledger : TaskLedger where
  ourKey := lit "n"
  tasks := Dict.empty.set (.str (lit "t")) job

def texts : Texts where
  ofVal := fun _ => []
  ofErr := fun _ => []

def events : List DispatchEvent := [.attempt [] 6 true]

theorem preempted : ¬ Machine.Throughout (step reference texts) (Lawful runtime view)
    (start runtime view ledger 6) events := by
  intro hall
  have hclaimed : ∃ t, Machine.run (step reference texts) (start runtime view ledger 6) events =
      some t ∧ t.claimed = [job] := ⟨_, rfl, by decide +kernel⟩
  rcases hclaimed with ⟨t, hrun, hclaims⟩
  have hdead := (hall.last hrun job (by rw [hclaims]; exact List.mem_singleton.mpr rfl)
    (by decide +kernel)).2.2
  exact absurd (hdead (.str (lit "a"))
    { status := .suspected, lastSeen := 0, shardId := some 2 } (by decide +kernel)
    (by unfold HomeOf; decide +kernel)) (by decide +kernel)

end Suspected

end WhisperNet
