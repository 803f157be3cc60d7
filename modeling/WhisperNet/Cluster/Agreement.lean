import WhisperNet.Cluster.Network
import WhisperNet.Ledger.Convergence

/-!
# Agreement on a Result

When a task has one result across a cluster. Nodes claim, renew, release and
complete it in any order, leases expire and are taken over, nodes stop, and
what they send is delivered late, twice, in another order or not at all.

The protocol does not decide a race by itself. Two nodes that claim a task
before either has heard of the other both lead it, and if both of them go on to
complete it there are two results (`two_results`). What it does guarantee is
that a race that has been settled stays settled: if a node completes the task
only while no other running node leads it, and no node takes a lease of it once
it is completed somewhere, then every completed record is the same one
(`one_result`). A leader cannot come back by way of the network, since all the
leases it ever sent have a version it has passed itself; that is the part of
the invariant that speaks about messages in flight.

## Main definitions

* `Leads`: A running node that holds the task in progress under its own lease.
* `HasDone`: A node that holds the task completed.
* `Settled`: The condition on a step.
* `Known`: The records of the task that are held or in flight.
* `Agreed`: The invariant.

## Theorems

* `agreed_replace`: What a step must satisfy to keep the invariant.
* `agreed_call`, `agreed_deliver`: Calls and deliveries keep it.
* `one_result`: In a settled run all completed records, and all results
  reported, are the same.
* `two_results`: A race that ends with two results.
-/

namespace WhisperNet

open TaskLedger
open PyVal (get)

variable {ι : Type}

/-- A running node that holds the task in progress under its own lease. -/
def Leads (taskId : PyStr) (s : Cluster ι) (i : ι) : Prop :=
  s.running i = true ∧ ∃ t, (s.ledgers i).find? taskId = some t ∧
    (s.ledgers i).isMine t = true

/-- A node that holds the task completed. -/
def HasDone (taskId : PyStr) (s : Cluster ι) (i : ι) : Prop :=
  ∃ t, (s.ledgers i).find? taskId = some t ∧ t.status = .completed

/-- A call that changes the record of the task. -/
def Rewrites (P : Primitives) (taskId : PyStr) (L : TaskLedger) (c : Call) : Prop :=
  (c.run P L).1.find? taskId ≠ L.find? taskId

/-- Messages come from the cluster. The task is submitted once. A node takes a
    lease of it only while no other node has it completed, completes it only
    while no other running node leads it, and does not complete or release it
    again once it has it completed. -/
def Settled (P : Primitives) (taskId : PyStr) (s : Cluster ι) : Event ι → Prop
  | .call i c _ => Rewrites P taskId (s.ledgers i) c → match c with
    | .submitTask .. => False
    | .claimTask .. => ∀ j, j ≠ i → ¬ HasDone taskId s j
    | .completeTask .. => ¬ HasDone taskId s i ∧ ∀ j, j ≠ i → ¬ Leads taskId s j
    | .releaseLease .. => ¬ HasDone taskId s i
    | _ => True
  | .deliver _ msg => msg ∈ s.sent
  | .stop _ => True

instance (taskId : PyStr) (s : Cluster ι) (i : ι) : Decidable (Leads taskId s i) :=
  decidable_of_iff (s.running i = true ∧ ∃ t ∈ (s.ledgers i).find? taskId,
    (s.ledgers i).isMine t = true) Iff.rfl

instance (taskId : PyStr) (s : Cluster ι) (i : ι) : Decidable (HasDone taskId s i) :=
  decidable_of_iff (∃ t ∈ (s.ledgers i).find? taskId, t.status = .completed) Iff.rfl

instance (P : Primitives) (taskId : PyStr) (L : TaskLedger) (c : Call) :
    Decidable (Rewrites P taskId L c) := inferInstanceAs (Decidable (_ ≠ _))

instance [Fintype ι] [DecidableEq ι] (P : Primitives) (taskId : PyStr) (s : Cluster ι)
    (e : Event ι) : Decidable (Settled P taskId s e) :=
  match e with
  | .call i c _ =>
    have : Decidable (Rewrites P taskId (s.ledgers i) c) := inferInstance
    match c with
    | .submitTask .. => inferInstanceAs (Decidable (_ → False))
    | .claimTask .. => inferInstanceAs (Decidable (_ → ∀ j, j ≠ i → ¬ HasDone taskId s j))
    | .completeTask .. => inferInstanceAs (Decidable
        (_ → ¬ HasDone taskId s i ∧ ∀ j, j ≠ i → ¬ Leads taskId s j))
    | .releaseLease .. => inferInstanceAs (Decidable (_ → ¬ HasDone taskId s i))
    | .renewLease .. | .releaseAllLeases | .recoverIdentity .. =>
      inferInstanceAs (Decidable (_ → True))
  | .deliver _ msg => inferInstanceAs (Decidable (msg ∈ s.sent))
  | .stop _ => isTrue trivial

/-- A record of the task in flight. -/
def InFlight (taskId : PyStr) (s : Cluster ι) (t : Task) : Prop :=
  t.taskId = .str taskId ∧ ∃ m ∈ s.sent, Carries m t

/-- A record of the task that some node holds or that is in flight. -/
def Known (taskId : PyStr) (s : Cluster ι) (t : Task) : Prop :=
  (∃ i, (s.ledgers i).find? taskId = some t) ∨ InFlight taskId s t

/-- A lease or a result of a node, or a pending record of no one, counted by an
    integer version. -/
def Sound (key : ι → PyStr) (t : Task) : Prop :=
  ((∃ n, t.leasedBy = .str (key n) ∧ (t.status = .inProgress ∨ t.status = .completed)) ∨
    (t.leasedBy = .none ∧ t.status = .pending)) ∧ t.version = .int t.rank

/-- Node `n` holds the task completed, or at the version of `t` or above. -/
def Passed (taskId : PyStr) (s : Cluster ι) (n : ι) (t : Task) : Prop :=
  ∃ t', (s.ledgers n).find? taskId = some t' ∧ (t'.status = .completed ∨ t.rank ≤ t'.rank)

/-- The invariant of a settled run. -/
structure Agreed (key : ι → PyStr) (taskId : PyStr) (s : Cluster ι) : Prop where
  named : ∀ i, (s.ledgers i).ourKey = key i
  filed : ∀ i, KeysMatch (s.ledgers i)
  sound : ∀ t, Known taskId s t → Sound key t
  /-- A lease in flight has been passed by its holder. -/
  passed : ∀ t, InFlight taskId s t → t.status = .inProgress → ∀ n, t.leasedBy = .str (key n) →
    Passed taskId s n t
  agree : ∀ t t', Known taskId s t → Known taskId s t' → t.status = .completed →
    t'.status = .completed → t.leasedBy = t'.leasedBy ∧ t.result = t'.result
  source : ∀ t, Known taskId s t → t.status = .completed → ∃ i, HasDone taskId s i
  quiet : (∃ i, HasDone taskId s i) → ∀ j, ¬ Leads taskId s j
  told : ∀ m ∈ s.results, get m (lit "task_id") = .str taskId →
    ∃ i t, (s.ledgers i).find? taskId = some t ∧ t.status = .completed ∧
      get m (lit "result") = t.result

/-- What may take the place of the record of the task at node `i`. -/
structure Replaces (key : ι → PyStr) (taskId : PyStr) (s : Cluster ι) (i : ι) (new : Task) :
    Prop where
  sound : Sound key new
  later : ∀ old, (s.ledgers i).find? taskId = some old →
    old.status ≠ .completed ∧ (new.status = .completed ∨ old.rank ≤ new.rank)
  /-- A completed record is known already, or the first one while no other
      node leads. -/
  done : new.status = .completed → Known taskId s new ∨
    ((∀ t, Known taskId s t → t.status ≠ .completed) ∧ ∀ j, j ≠ i → ¬ Leads taskId s j)
  /-- A lease of the node itself was its own, or no other node is done. -/
  lead : new.status = .inProgress → new.leasedBy = .str (key i) →
    Leads taskId s i ∨ ∀ j, j ≠ i → ¬ HasDone taskId s j

/-- A step at node `i`: the other nodes are as before, the node replaces its
    record or not, and what it sends or reports is known or is its new record. -/
structure StepAt (key : ι → PyStr) (taskId : PyStr) (s s' : Cluster ι) (i : ι) : Prop where
  active : s.running i = true
  running : s'.running = s.running
  named : (s'.ledgers i).ourKey = (s.ledgers i).ourKey
  filed : KeysMatch (s'.ledgers i)
  others : ∀ j, j ≠ i → s'.ledgers j = s.ledgers j
  record : (s'.ledgers i).find? taskId = (s.ledgers i).find? taskId ∨
    ∃ new, (s'.ledgers i).find? taskId = some new ∧ Replaces key taskId s i new
  inFlight : ∀ t, InFlight taskId s' t → InFlight taskId s t ∨
    ((s'.ledgers i).find? taskId = some t ∧ ∀ n, t.leasedBy = .str (key n) → n = i)
  told : ∀ m ∈ s'.results, get m (lit "task_id") = .str taskId → m ∈ s.results ∨
    ∃ t, (s'.ledgers i).find? taskId = some t ∧ t.status = .completed ∧
      get m (lit "result") = t.result

theorem leads_iff (key : ι → PyStr) (taskId : PyStr) (s : Cluster ι) (i : ι)
    (hn : (s.ledgers i).ourKey = key i) :
    Leads taskId s i ↔ s.running i = true ∧ ∃ t, (s.ledgers i).find? taskId = some t ∧
      t.status = .inProgress ∧ t.leasedBy = .str (key i) := by
  unfold Leads
  constructor
  · rintro ⟨hr, t, ht, hm⟩
    rw [isMine_iff, hn] at hm
    exact ⟨hr, t, ht, hm.2, hm.1⟩
  · rintro ⟨hr, t, ht, hs, hl⟩
    refine ⟨hr, t, ht, ?_⟩
    rw [isMine_iff, hn]
    exact ⟨hl, hs⟩

/-- A record known after a step was known before or is the new one. -/
theorem StepAt.known {key : ι → PyStr} {taskId : PyStr} {s s' : Cluster ι} {i : ι}
    (h : StepAt key taskId s s' i) {t : Task} (ht : Known taskId s' t) :
    Known taskId s t ∨ (s'.ledgers i).find? taskId = some t := by
  rcases ht with ⟨j, hj⟩ | hfly
  · by_cases hji : j = i
    · rw [hji] at hj
      exact Or.inr hj
    · rw [h.others j hji] at hj
      exact Or.inl (Or.inl ⟨j, hj⟩)
  · rcases h.inFlight t hfly with hold | ⟨hnew, _⟩
    · exact Or.inl (Or.inr hold)
    · exact Or.inr hnew

theorem StepAt.named_all {key : ι → PyStr} {taskId : PyStr} {s s' : Cluster ι} {i : ι}
    (hs : StepAt key taskId s s' i) (h : Agreed key taskId s) (j : ι) :
    (s'.ledgers j).ourKey = key j := by
  by_cases hj : j = i
  · rw [hj, hs.named, h.named]
  · rw [hs.others j hj, h.named]

theorem StepAt.filed_all {key : ι → PyStr} {taskId : PyStr} {s s' : Cluster ι} {i : ι}
    (hs : StepAt key taskId s s' i) (h : Agreed key taskId s) (j : ι) :
    KeysMatch (s'.ledgers j) := by
  by_cases hj : j = i
  · rw [hj]
    exact hs.filed
  · rw [hs.others j hj]
    exact h.filed j

/-- A step that leaves the record of the task alone keeps the invariant. -/
theorem agreed_same {key : ι → PyStr} {taskId : PyStr} {s s' : Cluster ι} {i : ι}
    (h : Agreed key taskId s) (hs : StepAt key taskId s s' i)
    (hsame : (s'.ledgers i).find? taskId = (s.ledgers i).find? taskId) :
    Agreed key taskId s' := by
  have hfind : ∀ j, (s'.ledgers j).find? taskId = (s.ledgers j).find? taskId := by
    intro j
    by_cases hj : j = i
    · rw [hj, hsame]
    · rw [hs.others j hj]
  have hnamed := hs.named_all h
  have hknown : ∀ t, Known taskId s' t → Known taskId s t := by
    intro t ht
    rcases hs.known ht with hold | hnew
    · exact hold
    · exact Or.inl ⟨i, by rw [← hsame, hnew]⟩
  have hdone : ∀ j, HasDone taskId s' j ↔ HasDone taskId s j := by
    intro j
    unfold HasDone
    rw [hfind j]
  -- No record of the task has changed, so each part is what it was.
  refine ⟨hnamed, hs.filed_all h, fun t ht => h.sound t (hknown t ht), ?_, ?_, ?_, ?_, ?_⟩
  · intro t ht hst n hn
    rcases hs.inFlight t ht with hold | ⟨hnew, hown⟩
    · rcases h.passed t hold hst n hn with ⟨t', ht', hp⟩
      exact ⟨t', by rw [hfind n, ht'], hp⟩
    · rw [hown n hn]
      exact ⟨t, hnew, Or.inr (le_refl _)⟩
  · exact fun t t' ht ht' => h.agree t t' (hknown t ht) (hknown t' ht')
  · intro t ht hst
    rcases h.source t (hknown t ht) hst with ⟨j, hj⟩
    exact ⟨j, (hdone j).mpr hj⟩
  · rintro ⟨j, hj⟩ n hlead
    rw [leads_iff key taskId s' n (hnamed n), hs.running, hfind n,
      ← leads_iff key taskId s n (h.named n)] at hlead
    exact h.quiet ⟨j, (hdone j).mp hj⟩ n hlead
  · intro m hm hid
    rcases hs.told m hm hid with hold | ⟨t, ht, hst, hr⟩
    · rcases h.told m hold hid with ⟨j, t, ht, hst, hr⟩
      exact ⟨j, t, by rw [hfind j, ht], hst, hr⟩
    · exact ⟨i, t, ht, hst, hr⟩

/-- The replaced record was not completed. -/
theorem Replaces.not_done {key : ι → PyStr} {taskId : PyStr} {s : Cluster ι} {i : ι} {new : Task}
    (hr : Replaces key taskId s i new) : ¬ HasDone taskId s i := by
  rintro ⟨t, ht, hst⟩
  exact (hr.later t ht).1 hst

/-- A replacement counts no version down, so what its node had passed it has
    passed still. -/
theorem passed_replace {key : ι → PyStr} {taskId : PyStr} {s s' : Cluster ι} {i : ι}
    (hs : StepAt key taskId s s' i) {new : Task} (hnew : (s'.ledgers i).find? taskId = some new)
    (hr : Replaces key taskId s i new) {n : ι} {t : Task} (h : Passed taskId s n t) :
    Passed taskId s' n t := by
  rcases h with ⟨t', ht', hp⟩
  by_cases hni : n = i
  · rw [hni] at ht' ⊢
    rcases hr.later t' ht' with ⟨hnc, hlater⟩
    have hle : t.rank ≤ t'.rank := hp.resolve_left hnc
    rcases hlater with hc | hge
    · exact ⟨new, hnew, Or.inl hc⟩
    · exact ⟨new, hnew, Or.inr (le_trans hle hge)⟩
  · exact ⟨t', by rw [hs.others n hni, ht'], hp⟩

/-- Where a node is done after a replacement, no node leads. -/
theorem quiet_replace {key : ι → PyStr} {taskId : PyStr} {s s' : Cluster ι} {i : ι}
    (h : Agreed key taskId s) (hs : StepAt key taskId s s' i) {new : Task}
    (hnew : (s'.ledgers i).find? taskId = some new) (hr : Replaces key taskId s i new) {j : ι}
    (hj : HasDone taskId s' j) (n : ι) : ¬ Leads taskId s' n := by
  -- Away from the node of the step every record is the old one.
  have hback : j ≠ i → HasDone taskId s j := by
    intro hji
    rcases hj with ⟨t, ht, hst⟩
    exact ⟨t, by rw [← hs.others j hji, ht], hst⟩
  intro hlead
  rw [leads_iff key taskId s' n (hs.named_all h n), hs.running] at hlead
  rcases hlead with ⟨hrun, t, ht, hst, hl⟩
  by_cases hn : n = i
  · -- The leader is the node itself, and its record is the new one.
    rw [hn, hnew, Option.some.injEq] at ht
    rw [← ht] at hst hl
    rw [hn] at hl
    have hji : j ≠ i := by
      intro hji
      rcases hj with ⟨t', ht', hst'⟩
      rw [hji, hnew, Option.some.injEq] at ht'
      rw [← ht', hst] at hst'
      exact absurd hst' (by simp only [reduceCtorEq, not_false_eq_true])
    rcases hr.lead hst hl with hled | hnone
    · exact h.quiet ⟨j, hback hji⟩ i hled
    · exact hnone j hji (hback hji)
  · -- Another node leads, as it did before.
    have hled : Leads taskId s n := by
      rw [leads_iff key taskId s n (h.named n)]
      exact ⟨hrun, t, by rw [← hs.others n hn, ht], hst, hl⟩
    by_cases hji : j = i
    · -- The completed record has just come in: it was known, or its node led.
      rcases hj with ⟨t', ht', hst'⟩
      rw [hji, hnew, Option.some.injEq] at ht'
      rw [← ht'] at hst'
      rcases hr.done hst' with hk | ⟨_, hno⟩
      · exact h.quiet (h.source new hk hst') n hled
      · exact hno n hn hled
    · exact h.quiet ⟨j, hback hji⟩ n hled

/-- A step that replaces the record of the task keeps the invariant. -/
theorem agreed_replace {key : ι → PyStr} {taskId : PyStr} {s s' : Cluster ι} {i : ι}
    (h : Agreed key taskId s) (hs : StepAt key taskId s s' i) (new : Task)
    (hnew : (s'.ledgers i).find? taskId = some new) (hr : Replaces key taskId s i new) :
    Agreed key taskId s' := by
  have hknown : ∀ t, Known taskId s' t → Known taskId s t ∨ t = new := by
    intro t ht
    rcases hs.known ht with hold | hheld
    · exact Or.inl hold
    · rw [hnew, Option.some.injEq] at hheld
      exact Or.inr hheld.symm
  -- Node `i` was not done, so what was done before is done elsewhere.
  have hkeep : ∀ j, HasDone taskId s j → HasDone taskId s' j := by
    rintro j ⟨t, ht, hst⟩
    by_cases hj : j = i
    · rw [hj] at ht
      exact absurd ⟨t, ht, hst⟩ hr.not_done
    · exact ⟨t, by rw [hs.others j hj, ht], hst⟩
  refine ⟨hs.named_all h, hs.filed_all h, ?_, ?_, ?_, ?_, ?_, ?_⟩
  · intro t ht
    rcases hknown t ht with hold | rfl
    · exact h.sound t hold
    · exact hr.sound
  · intro t ht hst n hn
    rcases hs.inFlight t ht with hold | ⟨hheld, hown⟩
    · exact passed_replace hs hnew hr (h.passed t hold hst n hn)
    · rw [hown n hn]
      exact ⟨t, hheld, Or.inr (le_refl _)⟩
  · -- Of two completed records, one at most is the first ever.
    intro t t' ht ht' hst hst'
    rcases hknown t ht with hold | rfl
    · rcases hknown t' ht' with hold' | rfl
      · exact h.agree t t' hold hold' hst hst'
      · rcases hr.done hst' with hk | ⟨hno, _⟩
        · exact h.agree t t' hold hk hst hst'
        · exact absurd hst (hno t hold)
    · rcases hknown t' ht' with hold' | rfl
      · rcases hr.done hst with hk | ⟨hno, _⟩
        · exact h.agree t t' hk hold' hst hst'
        · exact absurd hst' (hno t' hold')
      · exact ⟨rfl, rfl⟩
  · intro t ht hst
    rcases hknown t ht with hold | rfl
    · rcases h.source t hold hst with ⟨j, hj⟩
      exact ⟨j, hkeep j hj⟩
    · exact ⟨i, t, hnew, hst⟩
  · rintro ⟨j, hj⟩ n
    exact quiet_replace h hs hnew hr hj n
  · intro m hm hid
    rcases hs.told m hm hid with hold | ⟨t, ht, hst, hres⟩
    · rcases h.told m hold hid with ⟨j, t, ht, hst, hres⟩
      by_cases hj : j = i
      · rw [hj] at ht
        exact absurd ⟨t, ht, hst⟩ hr.not_done
      · exact ⟨j, t, by rw [hs.others j hj, ht], hst, hres⟩
    · exact ⟨i, t, ht, hst, hres⟩

theorem agreed_stepAt {key : ι → PyStr} {taskId : PyStr} {s s' : Cluster ι} {i : ι}
    (h : Agreed key taskId s) (hs : StepAt key taskId s s' i) : Agreed key taskId s' := by
  rcases hs.record with hsame | ⟨new, hnew, hr⟩
  · exact agreed_same h hs hsame
  · exact agreed_replace h hs new hnew hr

/-! ## New records -/

theorem rank_of_version {t : Task} {n : Int} (h : t.version = .int n) : t.rank = n := by
  unfold Task.rank
  rw [h]

/-- An edit does not lower an integer version. -/
theorem counted_rank {old new : Task} (hold : old.version = .int old.rank)
    (h : old.version.incr = .ok new.version ∨ new.version = old.version) :
    new.version = .int new.rank ∧ old.rank ≤ new.rank := by
  rcases h with h | h
  · rw [hold] at h
    have hv : new.version = .int (old.rank + 1) := (Except.ok.inj h).symm
    have hr := rank_of_version hv
    rw [hr]
    exact ⟨hv, by omega⟩
  · rw [hold] at h
    have hr := rank_of_version h
    rw [hr]
    exact ⟨h, le_refl _⟩

/-- An edit that meets the condition may take the place of the record. -/
theorem replaces_of_edit {P : Primitives} {key : ι → PyStr} {taskId : PyStr} {s : Cluster ι}
    {i : ι} {c : Call} {uuid : Task → PyStr} {new : Task} (h : Agreed key taskId s)
    (hrun : s.running i = true) (hok : Settled P taskId s (.call i c uuid))
    (hrw : Rewrites P taskId (s.ledgers i) c)
    (hedit : Edit (s.ledgers i) (.str taskId) ((s.ledgers i).find? taskId) new c)
    (hcount : c.isSubmit = false → Counted ((s.ledgers i).find? taskId) new) :
    Replaces key taskId s i new := by
  have hguard := hok hrw
  have hholder := edit_holder hedit
  rw [h.named i] at hholder
  -- A settled run submits the task no second time.
  have hsubmit : c.isSubmit = false := by
    cases c with
    | submitTask env id payload shardId submitterKey => exact absurd hguard not_false
    | claimTask id now => rfl
    | renewLease id now => rfl
    | completeTask id result now uuid => rfl
    | releaseLease id => rfl
    | releaseAllLeases => rfl
    | recoverIdentity now => rfl
  rcases hcount hsubmit with ⟨old, hold, hincr⟩
  have hsound := h.sound old (Or.inl ⟨i, hold⟩)
  rcases counted_rank hsound.2 hincr with ⟨hversion, hrank⟩
  have hnewsound : Sound key new := by
    refine ⟨?_, hversion⟩
    rcases hholder with ⟨hl, hst⟩ | hfree
    · exact Or.inl ⟨i, hl, hst⟩
    · exact Or.inr hfree
  have hmine : (s.ledgers i).isMine old = true → Leads taskId s i :=
    fun hm => ⟨hrun, old, hold, hm⟩
  have hlater : old.status ≠ .completed → ∀ t, (s.ledgers i).find? taskId = some t →
      t.status ≠ .completed ∧ (new.status = .completed ∨ t.rank ≤ new.rank) := by
    intro hne t ht
    rw [hold, Option.some.injEq] at ht
    rw [← ht]
    exact ⟨hne, Or.inr hrank⟩
  have hbusy : (s.ledgers i).isMine old = true → old.status ≠ .completed :=
    not_completed_of_isMine
  rw [hold] at hedit
  cases c with
  | submitTask env id payload shardId submitterKey => exact absurd hguard not_false
  | claimTask id now =>
      rcases hedit with ⟨_, t, ht, hne, _, hst, _⟩
      rw [Option.some.injEq] at ht
      rw [← ht] at hne
      exact ⟨hnewsound, hlater hne, fun hc => absurd (hst.symm.trans hc) Status.noConfusion,
        fun _ _ => Or.inr hguard⟩
  | renewLease id now =>
      rcases hedit with ⟨_, t, ht, hm, hst, _⟩
      rw [Option.some.injEq] at ht
      rw [← ht] at hm hst
      exact ⟨hnewsound, hlater (hbusy hm), fun hc => absurd (hst.symm.trans hc) (hbusy hm),
        fun _ _ => Or.inl (hmine hm)⟩
  | completeTask id result now uuid =>
      rcases hedit with ⟨_, t, ht, hl, hst, _⟩
      rw [Option.some.injEq] at ht
      rw [← ht, h.named i] at hl
      have hne : old.status ≠ .completed := fun hc => hguard.1 ⟨old, hold, hc⟩
      -- A record of this node that is not completed is one it leads.
      have hlead : Leads taskId s i := by
        rw [leads_iff key taskId s i (h.named i)]
        refine ⟨hrun, old, hold, ?_, hl⟩
        rcases hsound.1 with ⟨_, _, hst | hst⟩ | ⟨hnone, _⟩
        · exact hst
        · exact absurd hst hne
        · rw [hl] at hnone
          exact absurd hnone PyVal.noConfusion
      have hno : ∀ t, Known taskId s t → t.status ≠ .completed :=
        fun t ht hc => h.quiet (h.source t ht hc) i hlead
      exact ⟨hnewsound, hlater hne, fun _ => Or.inr ⟨hno, hguard.2⟩,
        fun hc => absurd (hst.symm.trans hc) Status.noConfusion⟩
  | releaseLease id =>
      rcases hedit with ⟨_, t, ht, _, hst, _⟩
      have hne : old.status ≠ .completed := fun hc => hguard ⟨old, hold, hc⟩
      exact ⟨hnewsound, hlater hne, fun hc => absurd (hst.symm.trans hc) Status.noConfusion,
        fun hc => absurd (hst.symm.trans hc) Status.noConfusion⟩
  | releaseAllLeases =>
      rcases hedit with ⟨t, ht, hm, hst, _⟩
      rw [Option.some.injEq] at ht
      rw [← ht] at hm
      exact ⟨hnewsound, hlater (hbusy hm), fun hc => absurd (hst.symm.trans hc) Status.noConfusion,
        fun hc => absurd (hst.symm.trans hc) Status.noConfusion⟩
  | recoverIdentity now =>
      rcases hedit with ⟨t, ht, hm, hst, _⟩
      rw [Option.some.injEq] at ht
      rw [← ht] at hm hst
      exact ⟨hnewsound, hlater (hbusy hm), fun hc => absurd (hst.symm.trans hc) (hbusy hm),
        fun _ _ => Or.inl (hmine hm)⟩

/-- A merged record of the task may take the place of the one before: it is
    known, later, and not a lease of the node it is merged at. -/
theorem replaces_of_accepts {key : ι → PyStr} {taskId : PyStr} {s : Cluster ι} {i : ι}
    {incoming : Task} (h : Agreed key taskId s) (hfly : InFlight taskId s incoming)
    (hacc : accepts ((s.ledgers i).find? taskId) incoming = .ok true) :
    Replaces key taskId s i incoming := by
  have hsound := h.sound incoming (Or.inr hfly)
  -- What is taken over is completed or of a higher version.
  have hlater : ∀ old, (s.ledgers i).find? taskId = some old → old.status ≠ .completed ∧
      (incoming.status = .completed ∨ old.rank < incoming.rank) := by
    intro old hold
    have hv := (h.sound old (Or.inl ⟨i, hold⟩)).2
    have hgt : PyVal.gt incoming.version old.version = .ok (decide (old.rank < incoming.rank)) := by
      rw [PyVal.gt, hsound.2, hv, lt_int]
    rw [hold] at hacc
    by_cases hc : old.status = .completed
    · simp only [accepts, if_pos hc, Except.ok.injEq, Bool.false_eq_true] at hacc
    · simp only [accepts, if_neg hc, hgt] at hacc
      refine ⟨hc, ?_⟩
      by_cases hlt : old.rank < incoming.rank
      · exact Or.inr hlt
      · simp only [hlt, decide_false, Except.ok.injEq, decide_eq_true_eq] at hacc
        exact Or.inl hacc
  refine ⟨hsound, fun old hold => ?_, fun _ => Or.inl (Or.inr hfly), fun hst hl => ?_⟩
  · rcases hlater old hold with ⟨hne, hc | hlt⟩
    · exact ⟨hne, Or.inl hc⟩
    · exact ⟨hne, Or.inr (le_of_lt hlt)⟩
  · -- The node passed every lease it has sent.
    rcases h.passed incoming hfly hst i hl with ⟨old, hold, hp⟩
    rcases hlater old hold with ⟨hne, hc | hlt⟩
    · rw [hst] at hc
      exact absurd hc Status.noConfusion
    · exact absurd (hp.resolve_left hne) (not_le.mpr hlt)

/-! ## Steps -/

/-- What a call reports is the result of a record that it leaves completed. -/
theorem notified_record {L : TaskLedger} {c : Call} {e : TaskLedger × List Output}
    (h : Edits L c e) {m : Msg} (hm : m ∈ notifications e.2) :
    ∃ k new, e.1.tasks.get? k = some new ∧ new.status = .completed ∧
      get m (lit "task_id") = new.taskId ∧ get m (lit "result") = new.result := by
  rcases mem_notifications _ m hm with ho | ⟨dest, ho⟩
  · rcases h.result _ ho with ⟨t, ht⟩ | ⟨k, new, hheld, hst, msg, hmsg, hmid, hres⟩
    · exact absurd ht Output.noConfusion
    · rcases hmsg with hmsg | hmsg
      · rw [Output.localResult.injEq] at hmsg
        exact ⟨k, new, hheld, hst, by rw [hmsg, hmid], by rw [hmsg, hres]⟩
      · exact absurd hmsg Output.noConfusion
  · rcases h.result _ ho with ⟨t, ht⟩ | ⟨k, new, hheld, hst, msg, hmsg, hmid, hres⟩
    · exact absurd ht Output.noConfusion
    · rcases hmsg with hmsg | hmsg
      · exact absurd hmsg Output.noConfusion
      · rw [Output.taskResult.injEq] at hmsg
        exact ⟨k, new, hheld, hst, by rw [hmsg.2, hmid], by rw [hmsg.2, hres]⟩

variable [DecidableEq ι]

theorem stepAt_call {P : Primitives} {key : ι → PyStr} (hkey : Function.Injective key)
    {taskId : PyStr} {s s' : Cluster ι} {i : ι} {c : Call} {uuid : Task → PyStr}
    (h : Agreed key taskId s) (hok : Settled P taskId s (.call i c uuid))
    (hstep : s.step P (.call i c uuid) = some s') : StepAt key taskId s s' i := by
  rcases Cluster.step_call hstep with ⟨hrun, hrunning, hledgers, hproduced, hrelayed, hresults⟩
  have hself : s'.ledgers i = (c.run P (s.ledgers i)).1 := by
    rw [hledgers, Function.update_self]
  have hfiled := run_keysMatch P (s.ledgers i) c (h.filed i)
  have hedits := run_edits P (s.ledgers i) c
  constructor
  · exact hrun
  · exact hrunning
  · rw [hself, (run_identity P (s.ledgers i) c).1]
  · rw [hself]
    exact hfiled
  · intro j hj
    rw [hledgers, Function.update_of_ne hj]
  · rw [hself]
    -- A call that leaves this record as it is gives no case; one that rewrites it is settled.
    by_cases hrw : Rewrites P taskId (s.ledgers i) c
    · rcases hedits.record (.str taskId) with hsame | ⟨new, hnew, hedit, hcount⟩
      · exact Or.inl hsame
      · exact Or.inr ⟨new, hnew, replaces_of_edit h hrun hok hrw hedit hcount⟩
    · exact Or.inl (not_not.mp hrw)
  · rintro t ⟨hid, m, hm, hcarry⟩
    unfold Cluster.sent at hm
    rw [hproduced, hrelayed, List.map_append, List.append_assoc, List.mem_append,
      List.mem_append] at hm
    rcases hm with hm | hm | hm
    · exact Or.inl ⟨hid, m, List.mem_append.mpr (Or.inl hm), hcarry⟩
    · -- The node has just gossiped its own new record of the task.
      rcases List.mem_map.mp hm with ⟨x, hx, rfl⟩
      rcases mem_sendings P _ i uuid _ x hx with ⟨_, hout, hmsg⟩
      have ht : t = x.record := carries_unique hcarry (carries_gossip hmsg)
      rcases hedits.gossip x.record hout with ⟨k, hheld, hedit, _⟩
      have hk : k = .str taskId := hfiled.key_eq hheld (by rw [← ht, hid])
      rw [hk] at hheld
      refine Or.inr ⟨by rw [hself, ht]; exact hheld, fun n hn => ?_⟩
      have hholder := edit_holder hedit
      rw [← ht, hn, h.named i] at hholder
      rcases hholder with ⟨hl, _⟩ | ⟨hl, _⟩
      · exact hkey (PyVal.str.inj hl)
      · exact absurd hl PyVal.noConfusion
    · exact Or.inl ⟨hid, m, List.mem_append.mpr (Or.inr hm), hcarry⟩
  · intro m hm hid
    rw [hresults, List.mem_append] at hm
    rcases hm with hm | hm
    · exact Or.inl hm
    · -- A result message is about a record that was just completed.
      rcases notified_record hedits hm with ⟨k, new, hheld, hst, hmid, hres⟩
      have hk : k = .str taskId := hfiled.key_eq hheld (by rw [← hmid, hid])
      rw [hk] at hheld
      exact Or.inr ⟨new, by rw [hself]; exact hheld, hst, hres⟩

theorem stepAt_deliver {P : Primitives} {key : ι → PyStr} {taskId : PyStr} {s s' : Cluster ι}
    {i : ι} {msg : Msg} (h : Agreed key taskId s) (hok : Settled P taskId s (.deliver i msg))
    (hstep : s.step P (.deliver i msg) = some s') : StepAt key taskId s s' i := by
  rcases Cluster.step_deliver hstep with ⟨hrun, hrunning, hledgers, hproduced, hrelayed, hresults⟩
  have hself : s'.ledgers i = ((s.ledgers i).handleLedgerUpdate P msg).ledger := by
    rw [hledgers, Function.update_self]
  have hcases := (s.ledgers i).handleLedgerUpdate_cases P msg
  constructor
  · exact hrun
  · exact hrunning
  · rw [hself, (update_identity P (s.ledgers i) msg).1]
  · rw [hself]
    exact update_keysMatch P (s.ledgers i) msg (h.filed i)
  · intro j hj
    -- The other ledgers are untouched.
    rw [hledgers, Function.update_of_ne hj]
  · rw [hself]
    unfold find?
    rcases hcases with ⟨hsame, _⟩ | ⟨d, incoming, k, hd, hfd, hk, _, hacc, hset, _⟩
    · rw [hsame]
      exact Or.inl rfl
    · -- The update was taken over, so it was in flight and replaces the record.
      rw [hset]
      by_cases hkid : Key.str taskId = k
      · rw [← hkid] at hk hacc ⊢
        have hfly : InFlight taskId s incoming :=
          ⟨(hashKey_eq_str _ _).mp hk, msg, hok, d, hd, hfd⟩
        exact Or.inr ⟨incoming, Dict.get?_set_self _ _ _, replaces_of_accepts h hfly hacc⟩
      · exact Or.inl (Dict.get?_set_of_ne _ _ _ _ hkid)
  · rintro t ⟨hid, m, hm, hcarry⟩
    unfold Cluster.sent at hm
    rw [hproduced, hrelayed, ← List.append_assoc, List.mem_append] at hm
    rcases hm with hm | hm
    · exact Or.inl ⟨hid, m, hm, hcarry⟩
    · -- A relayed message carries what the delivered one carries.
      have hrel := mem_relays _ m hm
      rcases hcases with ⟨_, hout⟩ | ⟨_, _, _, _, _, _, _, _, _, hout⟩
      · rw [hout] at hrel
        exact absurd hrel List.not_mem_nil
      · rcases hout _ hrel with ⟨hops, heq⟩
        rw [Output.relay.injEq] at heq
        rw [heq, carries_relay] at hcarry
        exact Or.inl ⟨hid, msg, hok, hcarry⟩
  · intro m hm _
    rw [hresults] at hm
    exact Or.inl hm

theorem agreed_stop {P : Primitives} {key : ι → PyStr} {taskId : PyStr} {s s' : Cluster ι} {i : ι}
    (h : Agreed key taskId s) (hstep : s.step P (.stop i) = some s') : Agreed key taskId s' := by
  rcases Cluster.step_stop hstep with ⟨hrunning, hledgers, hproduced, hrelayed, hresults⟩
  have hsent : s'.sent = s.sent := by
    unfold Cluster.sent
    rw [hproduced, hrelayed]
  have hknown : ∀ t, Known taskId s' t ↔ Known taskId s t := by
    intro t
    unfold Known InFlight
    rw [hledgers, hsent]
  have hdone : ∀ j, HasDone taskId s' j ↔ HasDone taskId s j := by
    intro j
    unfold HasDone
    rw [hledgers]
  refine ⟨?_, ?_, ?_, ?_, ?_, ?_, ?_, ?_⟩
  · rw [hledgers]
    exact h.named
  · rw [hledgers]
    exact h.filed
  · exact fun t ht => h.sound t ((hknown t).mp ht)
  · intro t ht hst n hn
    unfold InFlight at ht
    rw [hsent] at ht
    have hp := h.passed t ht hst n hn
    unfold Passed at hp ⊢
    rw [hledgers]
    exact hp
  · exact fun t t' ht ht' => h.agree t t' ((hknown t).mp ht) ((hknown t').mp ht')
  · intro t ht hst
    rcases h.source t ((hknown t).mp ht) hst with ⟨j, hj⟩
    exact ⟨j, (hdone j).mpr hj⟩
  · rintro ⟨j, hj⟩ n ⟨hrun, hrest⟩
    -- Stopping a node makes no one a leader.
    have hran : s.running n = true := by
      rw [hrunning] at hrun
      by_cases hn : n = i
      · rw [hn, Function.update_self] at hrun
        exact absurd hrun Bool.false_ne_true
      · rw [Function.update_of_ne hn] at hrun
        exact hrun
    rw [hledgers] at hrest
    exact h.quiet ⟨j, (hdone j).mp hj⟩ n ⟨hran, hrest⟩
  · rw [hresults, hledgers]
    exact h.told

theorem agreed_step {P : Primitives} {key : ι → PyStr} (hkey : Function.Injective key)
    {taskId : PyStr} (s : Cluster ι) (e : Event ι) (s' : Cluster ι) (h : Agreed key taskId s)
    (hok : Settled P taskId s e) (hstep : s.step P e = some s') : Agreed key taskId s' := by
  cases e with
  | call i c uuid => exact agreed_stepAt h (stepAt_call hkey h hok hstep)
  | deliver i msg => exact agreed_stepAt h (stepAt_deliver h hok hstep)
  | stop i => exact agreed_stop h hstep

/-- A cluster whose nodes have names of their own, file records under their
    ids, and know nothing of the task; and nothing has been sent. -/
structure Unaware (key : ι → PyStr) (taskId : PyStr) (s : Cluster ι) : Prop where
  named : ∀ i, (s.ledgers i).ourKey = key i
  filed : ∀ i, KeysMatch (s.ledgers i)
  unknown : ∀ i, (s.ledgers i).find? taskId = none
  silent : s.produced = [] ∧ s.relayed = [] ∧ s.results = []

/-- One submission: the task is known, and pending. -/
theorem agreed_submit {P : Primitives} {key : ι → PyStr} {taskId : PyStr} {s s' : Cluster ι}
    {i : ι} {env : SubmitEnv} {payload : PyStr} {shardId : Int} {submitterKey : PyVal}
    {uuid : Task → PyStr} (h : Unaware key taskId s)
    (hstep : s.step P (.call i (.submitTask env taskId payload shardId submitterKey) uuid)
      = some s') : Agreed key taskId s' := by
  rcases Cluster.step_call hstep with ⟨_, _, hledgers, hproduced, hrelayed, hresults⟩
  rcases h.silent with ⟨hp, hr, hn⟩
  have hrec : ∀ j t, (s'.ledgers j).find? taskId = some t →
      t = (s.ledgers i).submittedTask P env taskId payload shardId submitterKey := by
    intro j t ht
    rw [hledgers] at ht
    by_cases hj : j = i
    · rw [hj, Function.update_self] at ht
      have hself := Dict.get?_set_self (s.ledgers i).tasks (.str taskId)
        ((s.ledgers i).submittedTask P env taskId payload shardId submitterKey)
      exact (Option.some.inj (hself.symm.trans ht)).symm
    · rw [Function.update_of_ne hj, h.unknown j] at ht
      exact absurd ht (fun hc => nomatch hc)
  have hpending : ∀ t, Known taskId s' t → t.status = .pending ∧ t.leasedBy = .none ∧
      t.version = .int 1 := by
    rintro t (⟨j, hj⟩ | ⟨hid, m, hm, hcarry⟩)
    · rw [hrec j t hj]
      exact ⟨rfl, rfl, rfl⟩
    · unfold Cluster.sent at hm
      rw [hproduced, hrelayed, hp, hr, List.nil_append, List.append_nil] at hm
      rcases List.mem_map.mp hm with ⟨x, hx, rfl⟩
      rcases mem_sendings P _ i uuid _ x hx with ⟨_, hout, hmsg⟩
      rw [carries_unique hcarry (carries_gossip hmsg),
        Output.gossip.inj (List.mem_singleton.mp hout)]
      exact ⟨rfl, rfl, rfl⟩
  have hopen : ∀ t, Known taskId s' t → t.status ≠ .completed := by
    intro t ht hc
    rw [(hpending t ht).1] at hc
    exact absurd hc Status.noConfusion
  have hnodone : ∀ j, ¬ HasDone taskId s' j := by
    rintro j ⟨t, ht, hc⟩
    exact hopen t (Or.inl ⟨j, ht⟩) hc
  refine ⟨?_, ?_, ?_, ?_, ?_, ?_, ?_, ?_⟩
  · intro j
    rw [hledgers]
    by_cases hj : j = i
    · rw [hj, Function.update_self, (run_identity P (s.ledgers i) _).1, h.named]
    · rw [Function.update_of_ne hj, h.named]
  · intro j
    rw [hledgers]
    by_cases hj : j = i
    · rw [hj, Function.update_self]
      exact run_keysMatch P (s.ledgers i) _ (h.filed i)
    · rw [Function.update_of_ne hj]
      exact h.filed j
  · intro t ht
    rcases hpending t ht with ⟨hst, hl, hv⟩
    exact ⟨Or.inr ⟨hl, hst⟩, by rw [rank_of_version hv, hv]⟩
  · intro t ht hst n _
    rw [(hpending t (Or.inr ht)).1] at hst
    exact absurd hst Status.noConfusion
  · exact fun t t' ht _ hc _ => absurd hc (hopen t ht)
  · exact fun t ht hc => absurd hc (hopen t ht)
  · rintro ⟨j, hj⟩
    exact absurd hj (hnodone j)
  · intro m hm _
    -- A submission reports no result.
    rw [hresults, hn] at hm
    exact absurd hm List.not_mem_nil

/-- From one submission on, in a settled run: nodes that hold the task
    completed hold the same holder and result, and every result reported for
    the task is that result. -/
theorem one_result (P : Primitives) (key : ι → PyStr) (hkey : Function.Injective key)
    (taskId : PyStr) (s₀ s₁ s : Cluster ι) (i₀ : ι) (env : SubmitEnv) (payload : PyStr)
    (shardId : Int) (submitterKey : PyVal) (uuid : Task → PyStr) (es : List (Event ι))
    (h₀ : Unaware key taskId s₀)
    (hsubmit : s₀.step P (.call i₀ (.submitTask env taskId payload shardId submitterKey) uuid)
      = some s₁)
    (hok : Machine.Along (Cluster.step P) (Settled P taskId) s₁ es)
    (hrun : Machine.run (Cluster.step P) s₁ es = some s) :
    ∀ i t, (s.ledgers i).find? taskId = some t → t.status = .completed →
      (∀ j t', (s.ledgers j).find? taskId = some t' → t'.status = .completed →
        t.leasedBy = t'.leasedBy ∧ t.result = t'.result) ∧
      ∀ m ∈ s.results, get m (lit "task_id") = .str taskId → get m (lit "result") = t.result := by
  have h := Machine.invariant_run (Cluster.step P) (Agreed key taskId) (Settled P taskId)
    (agreed_step hkey) (agreed_submit h₀ hsubmit) hok hrun
  intro i t ht hst
  constructor
  · intro j t' ht' hst'
    exact h.agree t t' (Or.inl ⟨i, ht⟩) (Or.inl ⟨j, ht'⟩) hst hst'
  · intro m hm hid
    rcases h.told m hm hid with ⟨j, t', ht', hst', hres⟩
    rw [hres, (h.agree t t' (Or.inl ⟨i, ht⟩) (Or.inl ⟨j, ht'⟩) hst hst').2]

namespace Rivals

def key (b : Bool) : PyStr := if b then lit "b" else lit "a"

/-- Two nodes that know of nothing. -/
def start : Cluster Bool := ⟨fun b => { ourKey := key b }, fun _ => true, [], [], []⟩

def submit : Event Bool :=
  .call false (.submitTask .plain (lit "t") (lit "p") 1 (.str (lit "c"))) (fun _ => lit "m")

def claim (b : Bool) : Event Bool := .call b (.claimTask (lit "t") 1) (fun _ => key b)

def complete (b : Bool) (result : PyStr) : Event Bool :=
  .call b (.completeTask (lit "t") result 2 (lit "n")) (fun _ => result)

theorem key_injective : Function.Injective key := by
  intro a b h
  cases a with
  | true => cases b with
    | true => rfl
    | false => exact absurd h (by decide)
  | false => cases b with
    | true => exact absurd h (by decide)
    | false => rfl

theorem unaware : Unaware key (lit "t") start where
  named := fun _ => rfl
  filed := fun _ _ _ ht => nomatch ht
  unknown := fun _ => rfl
  silent := ⟨rfl, rfl, rfl⟩

/-- The status of the task at a node. -/
def statusAt (s : Cluster Bool) (b : Bool) : Option Status :=
  ((s.ledgers b).find? (lit "t")).map Task.status

/-- The last update that a node has made after these events. -/
noncomputable def news (es : List (Event Bool)) : Msg :=
  (((Machine.run (Cluster.step reference) start es).bind (fun s =>
    s.produced.getLast?)).map Sending.msg).getD []

/-- The second node hears of the submission and of the claim. -/
noncomputable def told : List (Event Bool) :=
  [.deliver true (news [submit]), claim false,
    .deliver true (news [submit, .deliver true (news [submit]), claim false])]

/-- The first node completes the task, and the second one is told of that, too. -/
noncomputable def shared : List (Event Bool) :=
  told ++ [complete false (lit "x"),
    .deliver true (news (submit :: told ++ [complete false (lit "x")]))]

/-- One node claims and completes the task, both hold it as completed, and they agree. -/
theorem single_result : ∃ s₁ s, start.step reference submit = some s₁ ∧
    Machine.run (Cluster.step reference) s₁ shared = some s ∧
    (∀ b, statusAt s b = some .completed) ∧
    ∀ i t, (s.ledgers i).find? (lit "t") = some t → t.status = .completed →
      (∀ j t', (s.ledgers j).find? (lit "t") = some t' → t'.status = .completed →
        t.leasedBy = t'.leasedBy ∧ t.result = t'.result) ∧
      ∀ m ∈ s.results, get m (lit "task_id") = .str (lit "t") →
        get m (lit "result") = t.result := by
  have hrun : ((start.step reference submit).bind (fun s₁ =>
      (Machine.run (Cluster.step reference) s₁ shared).map (fun s =>
        decide (Machine.Along (Cluster.step reference) (Settled reference (lit "t")) s₁ shared ∧
          ∀ b, statusAt s b = some .completed)))) = some true := by
    decide +kernel
  rcases Option.bind_eq_some_iff.mp hrun with ⟨s₁, hsubmit, hrest⟩
  rcases Option.map_eq_some_iff.mp hrest with ⟨s, hs, hfacts⟩
  rcases of_decide_eq_true hfacts with ⟨hok, hdone⟩
  exact ⟨s₁, s, hsubmit, hs, hdone, one_result reference key key_injective (lit "t") start s₁ s
    false .plain (lit "p") 1 (.str (lit "c")) (fun _ => lit "m") shared unaware hsubmit hok hs⟩

/-- The update that tells the second node of the task. -/
noncomputable def update : Msg :=
  match ({ ourKey := key false } : TaskLedger).gossipTask reference (lit "m")
      (({ ourKey := key false } : TaskLedger).submittedTask reference .plain (lit "t") (lit "p") 1
        (.str (lit "c"))) with
  | .ok msg => msg
  | .error _ => []

/-- Status, holder and result at both nodes, and the reported results. -/
noncomputable def verdicts (es : List (Event Bool)) :
    Option (List (Option (Status × PyVal × PyVal)) × List PyVal) :=
  (Machine.run (Cluster.step reference) start es).map (fun s =>
    ([false, true].map (fun b => ((s.ledgers b).find? (lit "t")).map (fun t =>
      (t.status, t.leasedBy, t.result))), s.results.map (fun m => get m (lit "result"))))

/-- Both nodes know of the task and claim it before they hear of each other's
    claim. Each completes it under its own lease. -/
theorem two_results :
    (Machine.run (Cluster.step reference) start [submit]).map Cluster.sent = some [update] ∧
      verdicts [submit, .deliver true update, claim false, claim true,
          complete false (lit "x"), complete true (lit "y")]
        = some ([some (.completed, .str (lit "a"), .str (lit "x")),
            some (.completed, .str (lit "b"), .str (lit "y"))],
          [.str (lit "x"), .str (lit "y")]) := by
  constructor
  · rfl
  · decide +kernel

end Rivals

end WhisperNet
