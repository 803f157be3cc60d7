import WhisperNet.Demo.Snapshot
import WhisperNet.Ledger.Convergence

/-!
# Merged Views

The dashboard and the web UI both merge what the nodes report of a task, in the
order in which the nodes are listed. The ledger has a rule for the same records:
completed always wins. The dashboard lets a completed record replace any other,
but lets a newer one replace it in turn, and the web UI looks at the version
alone. So a stale record with a higher version hides a completion, and of two
records with one version the first one is shown.

Neither happens as long as nothing that is not completed is newer than a
completed record, or as new as the newest, and without a completed record all the
newest ones agree. Then both views show the status that the ledger would settle
on. The web UI shows nothing at all, though, if some task in progress is under no
lease, since its payload is not built then.

## Main definitions

* `tableRows`, `payloadRows`: What is shown of each task.
* `SettledView`: There is a view, a completion is in it, and no order changes a status.
* `TableSteady`, `PayloadSteady`: What each rule needs of the reports.
* `Task.Shows`: A record and what `get_state` makes of it.

## Theorems

* `settled_iff`: From the views to the contests.
* `steady_table_iff`, `steady_payload_iff`: The contests.
* `views_settled_iff`: Both views.
* `shown_as_ledger`: Settled views show what the ledger holds.
-/

namespace WhisperNet

/-! ## Rows -/

/-- What the dashboard shows, by task. -/
def tableRows (states : NodeStates) : Except PyErr (List (PyStr × TaskView)) :=
  .ok (taskTable (states.map Prod.snd))

/-- What the web UI shows, by task. -/
def payloadRows (states : NodeStates) : Except PyErr (List (PyStr × TaskView)) :=
  (buildPayload states).map (fun p => p.tasks.map (fun r => (r.taskId, r.toTaskView)))

/-- In every order of the snapshots there is something to show, a task that one of them
    reports completed is shown completed, and no order shows another status than another
    order. -/
structure SettledView (rows : NodeStates → Except PyErr (List (PyStr × TaskView)))
    (states : NodeStates) : Prop where
  built : ∀ zs, zs.Perm states → ∃ shown, rows zs = .ok shown
  completed : ∀ zs, zs.Perm states → ∀ shown, rows zs = .ok shown → ∀ tid,
    (∃ c ∈ reports tid states, c.status = .completed) →
      ∃ t, (tid, t) ∈ shown ∧ t.status = .completed
  any_order : ∀ ys zs, ys.Perm states → zs.Perm states → ∀ shown shown', rows ys = .ok shown →
    rows zs = .ok shown' → ∀ tid t u, (tid, t) ∈ shown → (tid, u) ∈ shown' → t.status = u.status

/-- The same of a contest over the reports of one task. -/
def Steady (beats : TaskView → TaskView → Prop) [DecidableRel beats] (rs : List TaskView) : Prop :=
  ∀ ys zs : List TaskView, ys.Perm rs → zs.Perm rs → ∀ t u, champion beats ys = some t →
    champion beats zs = some u →
      t.status = u.status ∧ ((∃ c ∈ rs, c.status = .completed) → t.status = .completed)

/-- A view that shows champions is settled when there is one and their contests are
    steady. -/
theorem settled_iff {rows : NodeStates → Except PyErr (List (PyStr × TaskView))}
    {beats : TaskView → TaskView → Prop} [DecidableRel beats] {states : NodeStates} {built : Prop}
    (hbuilt : ∀ zs : NodeStates, zs.Perm states → ((∃ shown, rows zs = .ok shown) ↔ built))
    (hshown : ∀ zs shown, rows zs = .ok shown → ∀ tid t,
      (tid, t) ∈ shown ↔ champion beats (reports tid zs) = some t) :
    SettledView rows states ↔ built ∧ ∀ tid, Steady beats (reports tid states) := by
  constructor
  · intro h
    have hb : built := (hbuilt states (List.Perm.refl _)).mp (h.built states (List.Perm.refl _))
    refine ⟨hb, fun tid ys zs hys hzs t u ht hu => ?_⟩
    -- The orders of the reports come from orders of the snapshots.
    rcases exists_perm_filterMap _ states ys hys with ⟨ys', hys', hreports⟩
    rcases exists_perm_filterMap _ states zs hzs with ⟨zs', hzs', hreports'⟩
    rcases (hbuilt ys' hys').mpr hb with ⟨shown, hrows⟩
    rcases (hbuilt zs' hzs').mpr hb with ⟨shown', hrows'⟩
    have hmem : (tid, t) ∈ shown :=
      (hshown ys' shown hrows tid t).mpr (by rw [reports, hreports, ht])
    have hmem' : (tid, u) ∈ shown' :=
      (hshown zs' shown' hrows' tid u).mpr (by rw [reports, hreports', hu])
    refine ⟨h.any_order ys' zs' hys' hzs' shown shown' hrows hrows' tid t u hmem hmem', ?_⟩
    intro hcompleted
    rcases h.completed ys' hys' shown hrows tid hcompleted with ⟨w, hw, hstatus⟩
    rw [h.any_order ys' ys' hys' hys' shown shown hrows hrows tid t w hmem hw, hstatus]
  · rintro ⟨hb, h⟩
    -- The orders of the snapshots give orders of the reports.
    have hperm : ∀ {zs : NodeStates}, zs.Perm states → ∀ tid,
        (reports tid zs).Perm (reports tid states) := fun hzs tid => hzs.filterMap _
    refine ⟨fun zs hzs => (hbuilt zs hzs).mpr hb, ?_, ?_⟩
    · intro zs hzs shown hrows tid hcompleted
      rcases hcompleted with ⟨c, hc, hstatus⟩
      have hmem := (hperm hzs tid).mem_iff.mpr hc
      rcases champion_isSome beats (List.ne_nil_of_mem hmem) with ⟨t, ht⟩
      have hsteady := h tid _ _ (hperm hzs tid) (hperm hzs tid) t t ht ht
      exact ⟨t, (hshown zs shown hrows tid t).mpr ht, hsteady.2 ⟨c, hc, hstatus⟩⟩
    · intro ys zs hys hzs shown shown' hrows hrows' tid t u ht hu
      exact (h tid _ _ (hperm hys tid) (hperm hzs tid) t u
        ((hshown ys shown hrows tid t).mp ht) ((hshown zs shown' hrows' tid u).mp hu)).1

/-! ## The two rules -/

/-- None of the reports has a higher version. -/
def Newest (rs : List TaskView) (x : TaskView) : Prop :=
  x ∈ rs ∧ ∀ y ∈ rs, y.version ≤ x.version

/-- What the rule of the dashboard needs: nothing that is not completed is newer
    than a completed record, and without one the newest ones agree. -/
structure TableSteady (rs : List TaskView) : Prop where
  below : ∀ c ∈ rs, c.status = .completed → ∀ a ∈ rs, a.status ≠ .completed →
    a.version ≤ c.version
  agree : (∀ a ∈ rs, a.status ≠ .completed) → ∀ x y, Newest rs x → Newest rs y →
    x.status = y.status

/-- What the rule of the web UI needs: the newest ones agree, and are completed if
    any is. -/
structure PayloadSteady (rs : List TaskView) : Prop where
  newest : (∃ c ∈ rs, c.status = .completed) → ∀ x, Newest rs x → x.status = .completed
  agree : ∀ x y, Newest rs x → Newest rs y → x.status = y.status

section Rules

variable {rs : List TaskView}

/-- Each of the newest wins when it comes first, if only newer ones beat it. -/
theorem champion_of_newest {beats : TaskView → TaskView → Prop} [DecidableRel beats] {x : TaskView}
    (hbeats : ∀ y ∈ rs, beats y x → x.version < y.version) (hx : Newest rs x) :
    ∃ ys : List TaskView, ys.Perm rs ∧ champion beats ys = some x := by
  rcases exists_perm_first hx.1 with ⟨ys, hys⟩
  -- Nothing of the rest is newer.
  refine ⟨x :: ys, hys, champion_first (fun y hy hb => ?_)⟩
  have hmem := hys.mem_iff.mp (List.mem_cons_of_mem _ hy)
  exact absurd (hbeats y hmem hb) (not_lt.mpr (hx.2 y hmem))

theorem steady_table_iff : Steady TableBeats rs ↔ TableSteady rs := by
  constructor
  · intro h
    refine ⟨fun c hc hcompleted a ha hnot => ?_, fun hnone x y hx hy => ?_⟩
    · -- Else the completed record comes last but one, and the newer one last.
      by_contra hnewer
      have hne : a ≠ c := fun hc => hnot (hc ▸ hcompleted)
      rcases exists_perm_last_two hc ha hne with ⟨ys, hys⟩
      have hlast : champion TableBeats (ys ++ [c] ++ [a]) = some a :=
        champion_last_two (fun _ _ => Or.inl hcompleted) (Or.inr (not_le.mp hnewer))
      exact hnot ((h _ _ hys hys a a hlast hlast).2 ⟨c, hc, hcompleted⟩)
    · have hbeats : ∀ {w}, ∀ y ∈ rs, TableBeats y w → w.version < y.version :=
        fun y hy hb => hb.resolve_left (hnone y hy)
      rcases champion_of_newest hbeats hx with ⟨ys, hys, hwins⟩
      rcases champion_of_newest hbeats hy with ⟨zs, hzs, hwins'⟩
      exact (h ys zs hys hzs x y hwins hwins').1
  · intro h ys zs hys hzs t u ht hu
    by_cases hsome : ∃ c ∈ rs, c.status = .completed
    · -- The completed records win as a class.
      have hclass : ∀ {ws : List TaskView} {w}, ws.Perm rs → champion TableBeats ws = some w →
          w.status = .completed := by
        intro ws w hws hw
        refine champion_class (fun t : TaskView => t.status = .completed)
          (fun x _ y _ hx _ => Or.inl hx) (fun x hx y hy hnot hdone => ?_) ?_ hw
        · rintro (hc | hlt)
          · exact hnot hc
          · exact absurd hlt (not_lt.mpr
              (h.below y (hws.mem_iff.mp hy) hdone x (hws.mem_iff.mp hx) hnot))
        · rcases hsome with ⟨c, hc, hcompleted⟩
          exact ⟨c, hws.mem_iff.mpr hc, hcompleted⟩
      exact ⟨(hclass hys ht).trans (hclass hzs hu).symm, fun _ => hclass hys ht⟩
    · have hnone : ∀ a ∈ rs, a.status ≠ .completed := fun a ha hc => hsome ⟨a, ha, hc⟩
      -- Without a completed record the rule compares versions.
      have hrank : ∀ {ws : List TaskView} {w}, ws.Perm rs → champion TableBeats ws = some w →
          Newest rs w := by
        intro ws w hws hw
        have hmax := champion_rank TaskView.version
          (fun x hx y _ => or_iff_right (hnone x (hws.mem_iff.mp hx))) hw
        exact ⟨hws.mem_iff.mp (champion_mem hw), fun y hy => hmax y (hws.mem_iff.mpr hy)⟩
      exact ⟨h.agree hnone t u (hrank hys ht) (hrank hzs hu), fun hc => absurd hc hsome⟩

theorem steady_payload_iff : Steady WebBeats rs ↔ PayloadSteady rs := by
  constructor
  · intro h
    have hbeats : ∀ {w}, ∀ y ∈ rs, WebBeats y w → w.version < y.version := fun _ _ hb => hb
    constructor
    · intro hsome x hx
      rcases champion_of_newest hbeats hx with ⟨ys, hys, hwins⟩
      exact (h ys ys hys hys x x hwins hwins).2 hsome
    · intro x y hx hy
      rcases champion_of_newest hbeats hx with ⟨ys, hys, hwins⟩
      rcases champion_of_newest hbeats hy with ⟨zs, hzs, hwins'⟩
      exact (h ys zs hys hzs x y hwins hwins').1
  · intro h ys zs hys hzs t u ht hu
    have hrank : ∀ {ws : List TaskView} {w}, ws.Perm rs → champion WebBeats ws = some w →
        Newest rs w := by
      intro ws w hws hw
      have hmax := champion_rank TaskView.version (fun _ _ _ _ => Iff.rfl) hw
      exact ⟨hws.mem_iff.mp (champion_mem hw), fun y hy => hmax y (hws.mem_iff.mpr hy)⟩
    exact ⟨h.agree t u (hrank hys ht) (hrank hzs hu), fun hsome => h.newest hsome t (hrank hys ht)⟩

end Rules

/-! ## The two views -/

theorem settled_table_iff (states : NodeStates) :
    SettledView tableRows states ↔ ∀ tid, TableSteady (reports tid states) := by
  have hsettled : SettledView tableRows states ↔
      True ∧ ∀ tid, Steady TableBeats (reports tid states) :=
    settled_iff (fun zs _ => ⟨fun _ => trivial, fun _ => ⟨_, rfl⟩⟩)
      (fun zs shown hrows tid t => by rw [← Except.ok.inj hrows, mem_taskTable])
  simp only [hsettled, steady_table_iff, true_and]

/-- Whether there is a payload does not depend on the order. -/
theorem payloadRows_ok_iff {states zs : NodeStates} (hzs : zs.Perm states) :
    (∃ shown, payloadRows zs = .ok shown) ↔
      states.any (fun e => e.2.any Snapshot.unheld) = false := by
  rw [← hzs.any_eq, ← buildPayload_ok_iff, payloadRows]
  cases buildPayload zs with
  | error err => simp only [Except.map, reduceCtorEq, exists_false]
  | ok p => simp only [Except.map, Except.ok.injEq, exists_eq']

theorem mem_payloadRows {zs : NodeStates} {shown : List (PyStr × TaskView)}
    (h : payloadRows zs = .ok shown) (tid : PyStr) (t : TaskView) :
    (tid, t) ∈ shown ↔ champion WebBeats (reports tid zs) = some t := by
  unfold payloadRows at h
  cases hbuild : buildPayload zs with
  | error err => simp only [hbuild, Except.map, reduceCtorEq] at h
  | ok p =>
      rw [hbuild, Except.map, Except.ok.injEq] at h
      rw [← mem_payload_view hbuild, ← h]
      simp only [List.mem_map, Prod.mk.injEq]

theorem settled_payload_iff (states : NodeStates) :
    SettledView payloadRows states ↔ states.any (fun e => e.2.any Snapshot.unheld) = false ∧
      ∀ tid, PayloadSteady (reports tid states) := by
  have hsettled : SettledView payloadRows states ↔
      states.any (fun e => e.2.any Snapshot.unheld) = false ∧
        ∀ tid, Steady WebBeats (reports tid states) :=
    settled_iff (fun zs hzs => payloadRows_ok_iff hzs)
      (fun zs shown hrows tid t => mem_payloadRows hrows tid t)
  simp only [hsettled, steady_payload_iff]

/-- Both views are settled if and only if no report hides a completed one, the newest
    reports of the other tasks agree, and every task in progress is under a lease. -/
theorem views_settled_iff (states : NodeStates) :
    SettledView tableRows states ∧ SettledView payloadRows states ↔
      (∀ tid, TableSteady (reports tid states)) ∧
      states.any (fun e => e.2.any Snapshot.unheld) = false ∧
        ∀ tid, PayloadSteady (reports tid states) := by
  rw [settled_table_iff, settled_payload_iff]

/-! ## A stale snapshot -/

namespace Hidden

def taskId : PyStr := lit "t"

/-- A node that has heard of the completion. -/
def done : TaskView :=
  { taskId := taskId, shardId := 1, status := .completed, leasedBy := some (lit "aaaaaaaa"),
    result := some (lit "r"), version := 2 }

/-- Another that has claimed the task again and not heard of it. -/
def stale : TaskView :=
  { taskId := taskId, shardId := 1, status := .inProgress, leasedBy := some (lit "bbbbbbbb"),
    result := none, version := 3 }

def states : NodeStates :=
  [(8888, some (.ofTask (lit "aaaaaaaa1") done)), (8889, some (.ofTask (lit "bbbbbbbb1") stale))]

theorem reports_states : reports taskId states = [done, stale] := rfl

/-- Neither view shows the completion. -/
theorem unseen : ¬ SettledView tableRows states ∧ ¬ SettledView payloadRows states := by
  have hdone : ∃ c ∈ reports taskId states, c.status = .completed :=
    ⟨done, reports_states ▸ List.mem_cons_self .., rfl⟩
  constructor
  · intro h
    rcases h.completed states (List.Perm.refl _) _ rfl taskId hdone with ⟨t, ht, hstatus⟩
    rw [mem_taskTable, reports_states, show champion TableBeats [done, stale] = some stale from rfl,
      Option.some.injEq] at ht
    rw [← ht] at hstatus
    exact absurd hstatus (by decide)
  · intro h
    rcases (payloadRows_ok_iff (List.Perm.refl states)).mpr (by decide) with ⟨shown, hrows⟩
    rcases h.completed states (List.Perm.refl _) shown hrows taskId hdone with ⟨t, ht, hstatus⟩
    rw [mem_payloadRows hrows, reports_states,
      show champion WebBeats [done, stale] = some stale from rfl, Option.some.injEq] at ht
    rw [← ht] at hstatus
    exact absurd hstatus (by decide)

end Hidden

/-! ## The rule of the ledger -/

/-- The status that the rule of the ledger leaves, of the reports in some order. -/
def ledgerStatus (rs : List TaskView) : Option Status :=
  (StickyMax.outcome (fun t : TaskView => t.status = .completed) TaskView.version rs).map
    TaskView.status

/-- What `get_state` shows of a record, as far as the rules read it. -/
structure Task.Shows (t : Task) (v : TaskView) : Prop where
  status : t.status = v.status
  version : t.version = .int v.version

/-- The merge of the ledger leaves the status that the rule says. -/
theorem ledgerStatus_shown {ts : List Task} {vs : List TaskView}
    (h : List.Forall₂ Task.Shows ts vs) :
    (ts.foldl mergeStep none).map Task.status = ledgerStatus vs := by
  have hfinal : ∀ (t : Task) (v : TaskView), t.Shows v → (t.Completed ↔ v.status = .completed) := by
    intro t v hshows
    unfold Task.Completed
    rw [hshows.status]
  have hrank : ∀ (t : Task) (v : TaskView), t.Shows v → t.rank = v.version := by
    intro t v hshows
    unfold Task.rank
    rw [hshows.version]
  have hrel := StickyMax.foldl_stick_rel Task.Completed Task.rank hfinal hrank h Option.Rel.none
  unfold ledgerStatus StickyMax.outcome mergeStep
  generalize ts.foldl (StickyMax.stick Task.Completed Task.rank) none = held at hrel ⊢
  generalize vs.foldl _ none = shown at hrel ⊢
  cases hrel with
  | none => rfl
  | some hshows => exact congrArg some hshows.status

/-- A steady contest ends with the status of the ledger. -/
theorem steady_as_ledger {beats : TaskView → TaskView → Prop} [DecidableRel beats]
    {rs : List TaskView} (hrule : ∀ x y, beats y x → y.status = .completed ∨ x.version < y.version)
    (h : Steady beats rs) {t : TaskView} (hwins : champion beats rs = some t) :
    ledgerStatus rs = some t.status := by
  rcases StickyMax.outcome_spec (fun t : TaskView => t.status = .completed) TaskView.version rs
    (List.ne_nil_of_mem (champion_mem hwins)) with ⟨z, hz, hmem, hfinal, hmax⟩
  unfold ledgerStatus
  rw [hz, Option.map_some, Option.some.injEq]
  have hself := h rs rs (List.Perm.refl _) (List.Perm.refl _) t t hwins hwins
  by_cases hsome : ∃ c ∈ rs, c.status = .completed
  · rw [hself.2 hsome]
    exact hfinal hsome
  · have hnone : ∀ a ∈ rs, a.status ≠ .completed := fun a ha hc => hsome ⟨a, ha, hc⟩
    -- What the ledger holds is one of the newest, which some order shows.
    rcases champion_of_newest (fun y hy hb => (hrule z y hb).resolve_left (hnone y hy))
      ⟨hmem, hmax hnone⟩ with ⟨ys, hys, hwins'⟩
    exact (h ys rs hys (List.Perm.refl _) z t hwins' hwins).1

/-- Settled views show the status that the ledger holds after the same records. -/
theorem shown_as_ledger {states : NodeStates} {shown : List (PyStr × TaskView)} {tid : PyStr}
    {t : TaskView} (hmem : (tid, t) ∈ shown)
    (h : SettledView tableRows states ∧ tableRows states = .ok shown ∨
      SettledView payloadRows states ∧ payloadRows states = .ok shown) :
    ledgerStatus (reports tid states) = some t.status := by
  rcases h with ⟨hsettled, hrows⟩ | ⟨hsettled, hrows⟩
  · rw [← Except.ok.inj hrows, mem_taskTable] at hmem
    exact steady_as_ledger (fun _ _ hb => hb)
      (steady_table_iff.mpr ((settled_table_iff states).mp hsettled tid)) hmem
  · exact steady_as_ledger (fun _ _ hb => Or.inr hb)
      (steady_payload_iff.mpr (((settled_payload_iff states).mp hsettled).2 tid))
      ((mem_payloadRows hrows tid t).mp hmem)

end WhisperNet
