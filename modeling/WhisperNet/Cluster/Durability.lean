import WhisperNet.Cluster.Replication

/-!
# Durability

That a cluster forgets nothing. The tables of a node shrink when it restarts, and
grow again from its file; leases come and go, and merges replace one record by
another. Under all of this the progress of a node is what it was told, and what
it was told only grows. So a task that a node has once held or completed it holds
or has completed for good, over any number of crashes and restarts, and a node
that was once told of a completion shows it.

## Theorems

* `Fabric.step_news`, `Fabric.run_news`: A step takes no news back.
* `Fabric.Sound.has_iff`, `Fabric.Sound.done_iff`: A node holds what it was told of.
* `Fabric.durable`: Tasks and completions are kept in a careful run.
-/

namespace WhisperNet

open TaskLedger WhisperNode

namespace Fabric

variable {ι : Type} [DecidableEq ι]

theorem perform_news {s s' : Fabric ι} {i : ι} {node : WhisperNode} {flight : List Send}
    {made : List (PyStr × Task)} {handed : List Task}
    (h : s.perform i node flight made handed = some s') (j : ι) : s.news j ⊆ s'.news j := by
  rcases perform_some h with ⟨_, rfl⟩
  by_cases hj : j = i
  · rw [hj]
    simp only [Function.update_self]
    exact List.subset_append_left ..
  · simp only [Function.update_of_ne hj]
    exact List.Subset.refl _

/-- A step takes no news back, a restart included. -/
theorem step_news {P : Primitives} {s s' : Fabric ι} {e : FabricEvent ι}
    (h : s.step P e = some s') (j : ι) : s.news j ⊆ s'.news j := by
  cases e with
  | deliver i n env fromPeer =>
      simp only [step] at h
      cases hn : s.flight[n]? with
      | none =>
          rw [hn] at h
          cases h
      | some o =>
          simp only [hn] at h
          split at h
          · exact perform_news h j
          · cases h
  | call i c env =>
      simp only [step] at h
      split at h
      · exact perform_news h j
      · cases h
  | beat i b =>
      simp only [step] at h
      split at h
      · exact perform_news h j
      · cases h
  | work i e =>
      simp only [step] at h
      split at h
      · rcases Option.bind_eq_some_iff.mp h with ⟨node, _, hperform⟩
        exact perform_news hperform j
      · cases h
  | post o =>
      rw [← Option.some.inj h]
      exact List.Subset.refl _
  | lose n =>
      simp only [step] at h
      split at h
      · rw [← Option.some.inj h]
        exact List.Subset.refl _
      · cases h
  | stop i =>
      rw [← Option.some.inj h]
      exact List.Subset.refl _
  | start i now env =>
      simp only [step] at h
      split at h
      · cases h
      -- The ghost survives the process, the table does not.
      · exact perform_news h j

theorem run_news {P : Primitives} {s t : Fabric ι} {es : List (FabricEvent ι)}
    (hrun : Machine.run (step P) s es = some t) (j : ι) : s.news j ⊆ t.news j :=
  Machine.invariant_run (step P) (fun u => s.news j ⊆ u.news j) (fun _ _ => True)
    (fun _ _ _ hu _ hstep => List.Subset.trans hu (step_news hstep j)) (List.Subset.refl _)
    (Machine.along_of_forall (step P) _ s es (fun _ _ _ => trivial)) hrun

section Sound

variable {P : Primitives} {s t : Fabric ι}

omit [DecidableEq ι]

/-- A node holds the tasks it was told of. -/
theorem Sound.has_iff (hs : Sound P s) (i : ι) (k : Key) :
    Has (s.nodes i).ledger k ↔ s.Told i k := by
  rw [← progress_ne_bot_iff, hs.known i k, told_iff]

theorem Sound.done_iff (hs : Sound P s) (i : ι) (k : Key) :
    Done (s.nodes i).ledger k ↔ s.ToldDone i k := by
  rw [← progress_eq_true_iff, hs.known i k, toldDone_iff]

theorem told_mono {i : ι} (h : s.news i ⊆ t.news i) {k : Key} (hk : s.Told i k) : t.Told i k := by
  rcases hk with ⟨r, hr, hid⟩
  exact ⟨r, h hr, hid⟩

theorem toldDone_mono {i : ι} (h : s.news i ⊆ t.news i) {k : Key} (hk : s.ToldDone i k) :
    t.ToldDone i k := by
  rcases hk with ⟨r, hr, hid, hdone⟩
  exact ⟨r, h hr, hid, hdone⟩

end Sound

/-- In a careful run from the start, whatever was lost, delayed or restarted in
    between: a task that a node held at some point it holds at the end, and one that
    it had completed it has completed. At the end a node holds the tasks, and has
    completed those, that it ever issued or was handed an update of. -/
theorem durable {P : Primitives} (hP : P.Lawful) {s u t : Fabric ι} {es fs : List (FabricEvent ι)}
    (hinit : s.Initial) (hcareful : Machine.Along (step P) Careful s (es ++ fs))
    (hu : Machine.run (step P) s es = some u) (ht : Machine.run (step P) u fs = some t) (i : ι)
    (k : Key) :
    (Has (u.nodes i).ledger k → Has (t.nodes i).ledger k) ∧
      (Done (u.nodes i).ledger k → Done (t.nodes i).ledger k) ∧
      (Has (t.nodes i).ledger k ↔ t.Told i k) ∧ (Done (t.nodes i).ledger k ↔ t.ToldDone i k) := by
  have hsu : Sound P u := news_run hP hinit hcareful.of_append hu
  have hst : Sound P t := Machine.invariant_run (step P) (Sound P) Careful
    (fun _ _ _ hs hok hstep => step_sound hP hs hok hstep) hsu (hcareful.after hu) ht
  -- The news of the node only grew from the one state to the other.
  have hnews := run_news ht i
  rw [hsu.has_iff, hsu.done_iff, hst.has_iff, hst.done_iff]
  exact ⟨told_mono hnews, toldDone_mono hnews, Iff.rfl, Iff.rfl⟩

end Fabric

namespace Late

open Fabric

/-- The task that node `b` received it holds after a restart. -/
theorem restart_keeps : ∃ u t, Machine.run (Fabric.step reference) fabric early = some u ∧
    Machine.run (Fabric.step reference) u [.stop 1, .start 1 5 env] = some t ∧
    Has (t.nodes 1).ledger (.str (lit "t")) := by
  have hrun : (Machine.run (Fabric.step reference) fabric early).map (fun u =>
      decide (Has (u.nodes 1).ledger (.str (lit "t"))) &&
        (Machine.run (Fabric.step reference) u [.stop 1, .start 1 5 env]).isSome) = some true := by
    decide +kernel
  rcases Option.map_eq_some_iff.mp hrun with ⟨u, hu, hfacts⟩
  rw [Bool.and_eq_true, decide_eq_true_iff] at hfacts
  rcases Option.isSome_iff_exists.mp hfacts.2 with ⟨t, ht⟩
  exact ⟨u, t, hu, ht, (durable reference_lawful fabric_initial (by decide +kernel) hu ht 1 _).1
    hfacts.1⟩

end Late

end WhisperNet
