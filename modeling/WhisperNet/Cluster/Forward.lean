import WhisperNet.Cluster.Agreement
import WhisperNet.Cluster.Replication
import WhisperNet.Runtime.Zombies

/-!
# Ledgers That Go Forward

That a ledger takes nothing back. Of two records of a task the newer one is the one
that is completed, or has the higher version if neither is. A call counts the version
up, and a merge takes a record over only if it is newer. So whatever a node was told,
the record it has is at least as new, and so is the one in its file: a step that does
not write the file leaves every record as new as it was.

One call takes a record back: a submission puts its record in the place of any other,
with version 1. `Call.Novel` excludes submissions of ids that the ledger has.

## Main definitions

* `Tops`: The ledger has a record at least as new as this one.
* `Unsaved`: What a step may do without writing the file.
* `Forward`: A step takes no record back, and tops what it was told.
* `Call.Novel`: The call submits no id that the ledger has.
* `Turn`: An operation of the node itself, with what it sends.
* `Abreast`: The ledger and its file top all that the node was told.

## Theorems

* `run_writes`: A careful call writes the file, unless it does next to nothing.
* `run_forward`, `update_forward`: Calls and merges go forward.
* `run_turn`, `submitRaw_turn`: What calls and submissions write and send.
* `update_held`: A merge makes no holder with a lease that the ledger tops.
* `Abreast.next`, `Abreast.load`: Ledgers keep up, restarts included.
-/

namespace WhisperNet

open TaskLedger
open PyVal (get)

/-! ## Going forward -/

/-- The record the ledger has of the task is completed, or at least as new. -/
def Tops (L : TaskLedger) (taskId : PyStr) (r : Task) : Prop :=
  ∃ t, L.find? taskId = some t ∧ StickyMax.AtLeast Task.Completed Task.rank r t

/-- What a step may do to a ledger without writing the file: it takes no lease away,
    and leaves every record as new as it was. -/
structure Unsaved (L L' : TaskLedger) : Prop where
  disk : L'.disk = L.disk
  tops : ∀ taskId r, Tops L' taskId r → Tops L taskId r
  held : ∀ taskId, Held L taskId → Held L' taskId

/-- From `L` to `L'` no record goes back, and those that are told are topped. -/
structure Forward (L L' : TaskLedger) (told : List Task) : Prop where
  key : L'.ourKey = L.ourKey
  texts : TextKeys L'
  tops : ∀ taskId r, Tops L taskId r → Tops L' taskId r
  covers : ∀ t ∈ told, ∀ taskId, t.taskId = .str taskId → Tops L' taskId t
  file : L'.disk = L'.persist.disk ∨ Unsaved L L'

theorem tops_congr {L L' : TaskLedger} (h : L'.tasks = L.tasks) (taskId : PyStr) (r : Task) :
    Tops L' taskId r ↔ Tops L taskId r := by
  unfold Tops find?
  rw [h]

/-- A record tops itself. -/
theorem tops_self {L : TaskLedger} {taskId : PyStr} {t : Task} (h : L.find? taskId = some t) :
    Tops L taskId t := ⟨t, h, Or.inr (le_refl _)⟩

theorem held_put {L : TaskLedger} {taskId taskId' : PyStr} {t : Task} (ht : L.isMine t = true)
    (h : Held L taskId') : Held (L.put taskId t) taskId' := by
  rcases h with ⟨old, hold, hmine⟩
  unfold Held find? put
  rw [Dict.get?_set]
  by_cases hk : Key.str taskId' = Key.str taskId
  · rw [if_pos hk]
    exact ⟨t, rfl, ht⟩
  · rw [if_neg hk]
    exact ⟨old, hold, hmine⟩

theorem unsaved_refl (L : TaskLedger) : Unsaved L L := ⟨rfl, fun _ _ h => h, fun _ h => h⟩

theorem unsaved_same {L L' : TaskLedger} (htasks : L'.tasks = L.tasks) (hdisk : L'.disk = L.disk)
    (hkey : L'.ourKey = L.ourKey) : Unsaved L L' :=
  ⟨hdisk, fun taskId r => (tops_congr htasks taskId r).mp,
    fun taskId => (held_congr htasks hkey taskId).mpr⟩

/-- An open record of the same version, held by the node. -/
theorem unsaved_put {L : TaskLedger} {taskId : PyStr} {old t : Task}
    (hfound : L.find? taskId = some old) (ht : L.isMine t = true)
    (hversion : t.version = old.version) : Unsaved L (L.put taskId t) := by
  refine ⟨rfl, fun taskId' r htops => ?_, fun _ h => held_put ht h⟩
  unfold Tops find? put at htops
  rw [Dict.get?_set] at htops
  by_cases hk : Key.str taskId' = Key.str taskId
  · rw [if_pos hk] at htops
    rcases htops with ⟨w, hw, hle⟩
    have hrank : old.rank = t.rank := by
      unfold Task.rank
      rw [hversion]
    rw [← Option.some.inj hw] at hle
    rw [Key.str.inj hk]
    refine ⟨old, hfound, Or.inr ?_⟩
    rw [hrank]
    exact hle.resolve_left (open_of_isMine ht)
  · rw [if_neg hk] at htops
    exact htops

/-! ## Calls -/

/-- Integer versions count up. -/
theorem bumped_of_int {L : TaskLedger} {assign : Task → Task} (ts : List Task)
    (hv : ∀ t ∈ ts, t.version = .int t.rank) : L.bumped assign ts =
      .ok ((ts.filter (fun t => L.isMine t)).map (fun t => (bump assign t).1)) := by
  induction ts with
  | nil => rfl
  | cons t ts ih =>
      have hrest := ih (fun t' ht' => hv t' (List.mem_cons_of_mem _ ht'))
      by_cases hmine : L.isMine t = true
      · have hincr : t.version.incr = .ok (.int (t.rank + 1)) := by
          rw [hv t (List.mem_cons_self ..)]
          rfl
        rw [List.filter_cons_of_pos hmine, List.map_cons]
        simp only [bumped, if_pos hmine, hincr, hrest, bump]
      · rw [List.filter_cons_of_neg hmine, bumped, if_neg hmine, hrest]

/-- The walk over the own records reaches all of them. -/
theorem bumped_values {L : TaskLedger} (hf : FiledAs Regular L) (assign : Task → Task) :
    L.bumped assign L.tasks.values =
      .ok ((L.tasks.values.filter (fun t => L.isMine t)).map (fun t => (bump assign t).1)) := by
  refine bumped_of_int _ (fun t ht => ?_)
  rcases List.mem_map.mp ht with ⟨e, he, rfl⟩
  rcases hf e.1 e.2 ((L.tasks.mem_entries_iff e.1 e.2).mp he) with ⟨_, _, hreg⟩
  exact hreg.version

/-- The walks over the own records write the file if there are any. -/
theorem bumpAll_writes {L : TaskLedger} (hf : FiledAs Regular L) (assign : Task → Task) :
    (L.bumpAll assign).ledger.disk = (L.bumpAll assign).ledger.persist.disk ∨
      Unsaved L (L.bumpAll assign).ledger := by
  have hok := bumped_values hf assign
  have hget := L.bumpAll_get? assign
  unfold bumpAll at hget ⊢
  rw [hok] at hget ⊢
  cases hours : L.tasks.values.filter (fun t => L.isMine t) with
  | nil =>
      right
      have hmine : ∀ k t, L.tasks.get? k = some t → ¬ L.isMine t = true := by
        intro k t ht
        have hmem : t ∈ L.tasks.values :=
          List.mem_map.mpr ⟨(k, t), (L.tasks.mem_entries_iff _ _).mpr ht, rfl⟩
        exact List.filter_eq_nil_iff.mp hours t hmem
      rw [hours] at hget
      refine ⟨rfl, fun taskId r htops => ?_, fun taskId hheld => ?_⟩
      · rcases hget (.str taskId) with hsame | ⟨old, hold, hours, _⟩
        · rcases htops with ⟨t, ht, hle⟩
          exact ⟨t, hsame.symm.trans ht, hle⟩
        · exact absurd hours (hmine _ old hold)
      · rcases hheld with ⟨t, ht, hours⟩
        exact absurd hours (hmine _ t ht)
  | cons t ts => exact Or.inl rfl

/-- A claim that raises has assigned the lease already. -/
theorem claimFree_writes {L M : TaskLedger} {taskId : PyStr} {task : Task} (now : ℚ)
    (hv : ∃ v, task.version.incr = .ok v) (hfound : L.find? taskId = some task)
    (hM : M.tasks = L.tasks ∧ M.disk = L.disk ∧ M.ourKey = L.ourKey) :
    (M.claimFree taskId task now).ledger.disk = (M.claimFree taskId task now).ledger.persist.disk ∨
      Unsaved L (M.claimFree taskId task now).ledger := by
  rcases hv with ⟨v, hv⟩
  unfold claimFree
  cases digest16 (commitmentText M.ourKey taskId now) with
  | error e =>
      right
      have hfound' : M.find? taskId = some task := by
        unfold find?
        rw [hM.1]
        exact hfound
      have hput := unsaved_put (L := M) hfound' (t := { task with
        status := .inProgress, leasedBy := .str M.ourKey
        leaseExpires := .float (now + M.leaseDuration), claimedAt := .float now })
        ((isMine_iff _ _).mpr ⟨rfl, rfl⟩) rfl
      have hsame := unsaved_same hM.1 hM.2.1 hM.2.2
      exact ⟨hput.disk.trans hsame.disk, fun id r h => hsame.tops id r (hput.tops id r h),
        fun id h => hput.held id (hsame.held id h)⟩
  | ok commitment =>
      simp only [hv]
      exact Or.inl rfl

/-- A careful call writes the file, unless it does next to nothing. -/
theorem run_writes (P : Primitives) {L : TaskLedger} {c : Call} (hf : FiledAs Regular L)
    (hc : Careful L c) :
    (c.run P L).1.disk = (c.run P L).1.persist.disk ∨ Unsaved L (c.run P L).1 := by
  have hincr : ∀ {taskId t}, L.find? taskId = some t → ∃ v, t.version.incr = .ok v := by
    intro taskId t ht
    rcases hf _ t ht with ⟨_, _, hreg⟩
    rw [hreg.version]
    exact ⟨_, rfl⟩
  have hidle : Unsaved L L := unsaved_refl L
  cases c with
  | submitTask env taskId payload shardId submitterKey => exact Or.inl rfl
  | claimTask taskId now =>
      simp only [Call.run, Outcome.effect, claimTask]
      split
      · exact Or.inr hidle
      · rename_i task hfound
        split
        · exact Or.inr hidle
        · split
          · exact Or.inr hidle
          · rename_i orphaned _
            split
            · exact Or.inr hidle
            · cases orphaned with
              | false => exact claimFree_writes now (hincr hfound) hfound ⟨rfl, rfl, rfl⟩
              | true => exact claimFree_writes now (hincr hfound) hfound ⟨rfl, rfl, rfl⟩
  | renewLease taskId now =>
      simp only [Call.run, Outcome.effect, renewLease]
      split
      · exact Or.inr hidle
      · rename_i task hfound
        rcases hincr hfound with ⟨v, hv⟩
        simp only [hv]
        split
        · exact Or.inr hidle
        · exact Or.inl rfl
  | completeTask taskId result now uuid =>
      simp only [Call.run, Outcome.effect, completeTask]
      split
      · exact Or.inr hidle
      · rename_i task hfound
        rcases hincr hfound with ⟨v, hv⟩
        simp only [hv]
        split
        · exact Or.inr hidle
        · -- A careful completion has an encoding of its result.
          rename_i hours
          rcases hc task hfound (not_not.mp hours) with ⟨h, hdigest⟩
          simp only [hdigest]
          exact Or.inl rfl
  | releaseLease taskId =>
      simp only [Call.run, Outcome.effect, releaseLease]
      split
      · exact Or.inr hidle
      · rename_i task hfound
        rcases hincr hfound with ⟨v, hv⟩
        simp only [hv]
        split
        · exact Or.inr hidle
        · exact Or.inl rfl
  | releaseAllLeases => exact bumpAll_writes hf _
  | recoverIdentity now => exact bumpAll_writes hf _

/-- A careful edit of a record there is leaves one at least as new. -/
theorem edit_atLeast {L : TaskLedger} {k : Key} {old new : Task} {c : Call}
    (hedit : Edit L k (some old) new c) (hold : L.tasks.get? k = some old)
    (hcount : Counted (some old) new) (hranked : old.version = .int old.rank)
    (hc : Careful L c) (hsubmit : c.isSubmit = false) {r : Task}
    (h : StickyMax.AtLeast Task.Completed Task.rank r old) :
    StickyMax.AtLeast Task.Completed Task.rank r new := by
  rcases h with hdone | hle
  · left
    -- Of a completed record only a completion is left to write.
    cases c with
    | submitTask env taskId payload shardId submitterKey => cases hsubmit
    | claimTask taskId now =>
        rcases hedit with ⟨_, t, ht, hopen, _⟩
        rw [Option.some.inj ht] at hdone
        exact absurd hdone hopen
    | renewLease taskId now =>
        rcases hedit with ⟨_, t, ht, hmine, _⟩
        rw [Option.some.inj ht] at hdone
        exact absurd hdone (open_of_isMine hmine)
    | completeTask taskId result now uuid =>
        rcases hedit with ⟨_, t, _, _, hstatus, _⟩
        exact hstatus
    | releaseLease taskId =>
        rcases hedit with ⟨hk, t, ht, hours, _⟩
        rw [hk] at hold
        rw [← Option.some.inj ht] at hours
        exact absurd hdone (hc old hold hours)
    | releaseAllLeases =>
        rcases hedit with ⟨t, ht, hmine, _⟩
        rw [Option.some.inj ht] at hdone
        exact absurd hdone (open_of_isMine hmine)
    | recoverIdentity now =>
        rcases hedit with ⟨t, ht, hmine, _⟩
        rw [Option.some.inj ht] at hdone
        exact absurd hdone (open_of_isMine hmine)
  · right
    rcases hcount with ⟨t, ht, hstep⟩
    rw [← Option.some.inj ht] at hstep
    exact hle.trans (counted_rank hranked hstep).2

/-- The call submits no id that the ledger has. -/
def Call.Novel (L : TaskLedger) : Call → Prop
  | .submitTask _ taskId _ _ _ => ¬ Has L (.str taskId)
  | _ => True

/-- A careful call that submits nothing anew goes forward. -/
theorem run_forward (P : Primitives) {L : TaskLedger} {c : Call} (hf : FiledAs Regular L)
    (hc : Careful L c) (hnovel : c.Novel L) :
    Forward L (c.run P L).1 (gossips (c.run P L).2) where
  key := (run_identity P L c).1
  texts := (run_filed P c hf).textKeys
  tops := fun taskId r ⟨old, hold, hle⟩ => by
    rcases (run_edits P L c).record (.str taskId) with hsame | ⟨new, hnew, hedit, hcount⟩
    · exact ⟨old, hsame.trans hold, hle⟩
    · have hold' : L.tasks.get? (.str taskId) = some old := hold
      rw [hold'] at hedit hcount
      rcases hf _ old hold with ⟨_, _, hreg⟩
      cases hsubmit : c.isSubmit with
      | true =>
          cases c with
          | submitTask env taskId' payload shardId submitterKey =>
              rw [hedit.1] at hold'
              exact absurd ⟨old, hold'⟩ hnovel
          | _ => cases hsubmit
      | false =>
          exact ⟨new, hnew, edit_atLeast hedit hold' (hcount hsubmit) hreg.version hc hsubmit hle⟩
  covers := fun t ht taskId hid => by
    rcases (run_edits P L c).gossip t ((mem_gossips _ t).mp ht) with ⟨k, hk, _⟩
    rcases run_filed P c hf k t hk with ⟨taskId', rfl, hreg⟩
    rw [PyVal.str.inj (hid.symm.trans hreg.id)]
    exact tops_self hk
  file := run_writes P hf hc

/-- An operation of the node itself: it goes forward, what it writes and sends names the
    node or nobody as the holder, and what it sends is what it has written. -/
structure Turn (L : TaskLedger) (e : TaskLedger × List Output) : Prop where
  forward : Forward L e.1 (gossips e.2)
  writes : ∀ taskId t, e.1.find? taskId = some t → L.find? taskId = some t ∨
    t.leasedBy = .str L.ourKey ∨ t.leasedBy = .none
  holder : ∀ t ∈ gossips e.2, t.leasedBy = .str L.ourKey ∨ t.leasedBy = .none
  sends : ∀ t ∈ gossips e.2, ∀ taskId, t.taskId = .str taskId → e.1.find? taskId = some t

theorem run_turn (P : Primitives) {L : TaskLedger} {c : Call} (hf : FiledAs Regular L)
    (hc : Careful L c) (hnovel : c.Novel L) : Turn L (c.run P L) where
  forward := run_forward P hf hc hnovel
  writes := fun taskId t ht => by
    rcases (run_edits P L c).record (.str taskId) with hsame | ⟨new, hnew, hedit, _⟩
    · exact Or.inl (hsame.symm.trans ht)
    · right
      have hsame : new = t := Option.some.inj (hnew.symm.trans ht)
      rw [← hsame]
      exact (edit_holder hedit).imp And.left And.left
  holder := fun t ht => by
    rcases (run_edits P L c).gossip t ((mem_gossips _ t).mp ht) with ⟨k, _, hedit, _⟩
    exact (edit_holder hedit).imp And.left And.left
  sends := fun t ht taskId hid => by
    rcases (run_edits P L c).gossip t ((mem_gossips _ t).mp ht) with ⟨k, hk, _⟩
    rcases run_filed P c hf k t hk with ⟨taskId', rfl, hreg⟩
    rw [PyVal.str.inj (hid.symm.trans hreg.id)]
    exact hk

/-! ## Merges -/

/-- An update that has not been seen is merged into the record of its task, and into
    no other. -/
theorem update_find {P : Primitives} {L : TaskLedger} (hf : FiledAs Regular L) {taskId : PyStr}
    (u : Update P taskId) (hreg : Regular taskId u.record) (hfresh : .str u.id ∉ L.seenIds.items)
    (taskId' : PyStr) : (L.handleLedgerUpdate P u.msg).ledger.find? taskId' =
      if taskId' = taskId then mergeStep (L.find? taskId) u.record else L.find? taskId' := by
  by_cases hid : taskId' = taskId
  · rw [if_pos hid, hid]
    refine merge_update P taskId u L (fun old hold => ?_) hfresh
    rcases hf _ old hold with ⟨_, _, hregular⟩
    exact hregular.version
  · rw [if_neg hid]
    unfold find?
    rcases update_progress hf u hreg hfresh with ⟨hsame, _⟩ | hfiles
    · rw [hsame]
    · rw [hfiles.tasks, Dict.get?_set_of_ne _ _ _ _ (fun hc => hid (Key.str.inj hc))]

/-- A merge goes forward, to the record it was told. -/
theorem update_forward {P : Primitives} {L : TaskLedger} (hf : FiledAs Regular L) {taskId : PyStr}
    (u : Update P taskId) (hreg : Regular taskId u.record)
    (hfresh : .str u.id ∉ L.seenIds.items) :
    Forward L (L.handleLedgerUpdate P u.msg).ledger [u.record] where
  key := (update_identity P L u.msg).1
  texts := (update_filed hf u hreg hfresh).textKeys
  tops := fun taskId' r ⟨old, hold, hle⟩ => by
    unfold Tops
    rw [update_find hf u hreg hfresh taskId']
    by_cases hid : taskId' = taskId
    · rw [hid] at hold
      rw [if_pos hid, hold]
      exact StickyMax.atLeast_stick _ _ hle u.record
    · rw [if_neg hid]
      exact ⟨old, hold, hle⟩
  covers := fun t ht taskId' hid => by
    rw [List.mem_singleton.mp ht] at hid ⊢
    have hsame : taskId' = taskId := PyVal.str.inj (hid.symm.trans u.record_id)
    unfold Tops
    rw [update_find hf u hreg hfresh taskId', if_pos hsame]
    exact StickyMax.stick_atLeast _ _ (L.find? taskId) u.record
  file := by
    rcases update_progress hf u hreg hfresh with ⟨hsame, _⟩ | hfiles
    · rcases update_file P L u.msg with hkept | hwritten
      · exact Or.inr (unsaved_same hsame hkept (update_identity P L u.msg).1)
      · exact Or.inl hwritten
    · exact Or.inl hfiles.written

/-- The merge of a lease that the ledger tops takes it no further. -/
theorem update_held {P : Primitives} {L : TaskLedger} (hf : FiledAs Regular L) {taskId : PyStr}
    (u : Update P taskId) (hreg : Regular taskId u.record) (hfresh : .str u.id ∉ L.seenIds.items)
    (htops : L.isMine u.record = true → Tops L taskId u.record) (taskId' : PyStr)
    (h : Held (L.handleLedgerUpdate P u.msg).ledger taskId') : Held L taskId' := by
  rcases h with ⟨t, ht, hmine⟩
  rw [isMine_iff, (update_identity P L u.msg).1, ← isMine_iff] at hmine
  rw [update_find hf u hreg hfresh taskId'] at ht
  by_cases hid : taskId' = taskId
  · rw [if_pos hid] at ht
    by_cases hours : L.isMine u.record = true
    · -- The record that is there stays.
      rcases htops hours with ⟨old, hold, hle⟩
      have hkeep : mergeStep (some old) u.record = some old :=
        StickyMax.stick_of_atLeast _ _ hle (open_of_isMine hours)
      rw [hold, hkeep] at ht
      rw [hid]
      exact ⟨old, hold, by rw [Option.some.inj ht]; exact hmine⟩
    · cases hfound : L.find? taskId with
      | none =>
          rw [hfound] at ht
          rw [← Option.some.inj ht] at hmine
          exact absurd hmine hours
      | some old =>
          rw [hfound] at ht
          simp only [mergeStep, StickyMax.stick] at ht
          split at ht
          · rw [hid]
            exact ⟨old, hfound, by rw [Option.some.inj ht]; exact hmine⟩
          · split at ht
            · rw [← Option.some.inj ht] at hmine
              exact absurd hmine hours
            · rw [hid]
              exact ⟨old, hfound, by rw [Option.some.inj ht]; exact hmine⟩
  · rw [if_neg hid] at ht
    exact ⟨t, ht, hmine⟩

/-- A careful submission of an id that is new to the ledger. It makes no holder. -/
theorem submitRaw_turn (P : Primitives) {L : TaskLedger} (hL : Kept L) {taskId : PyStr}
    (hnew : ¬ Has L (.str taskId)) (env : SubmitEnv) (payload : PyVal) (shardId : Int)
    (submitterKey : PyVal) :
    Turn L (L.submitRaw P env (.str taskId) payload shardId submitterKey).effect ∧
      ∀ taskId', Held (L.submitRaw P env (.str taskId) payload shardId submitterKey).ledger
        taskId' → Held L taskId' := by
  have hdeed := submitRaw_deed P hL (fun ⟨t, ht, _⟩ => hnew ⟨t, ht⟩) env payload shardId
    submitterKey
  have hreg := submittedRaw_regular L P env taskId payload shardId submitterKey
  have hself : (L.submitRaw P env (.str taskId) payload shardId submitterKey).ledger.find? taskId =
      some (L.submittedRaw P env (.str taskId) payload shardId submitterKey) :=
    Dict.get?_set_self _ _ _
  have hother : ∀ taskId', taskId' ≠ taskId →
      (L.submitRaw P env (.str taskId) payload shardId submitterKey).ledger.find? taskId' =
        L.find? taskId' := fun taskId' hid =>
    Dict.get?_set_of_ne _ _ _ _ (fun hc => hid (Key.str.inj hc))
  have hnone : (L.submittedRaw P env (.str taskId) payload shardId submitterKey).leasedBy =
      .none := by
    cases payload with
    | _ => rfl
  have hsent : ∀ t ∈ gossips (L.submitRaw P env (.str taskId) payload shardId submitterKey).out,
      t = L.submittedRaw P env (.str taskId) payload shardId submitterKey := fun t ht =>
    List.mem_singleton.mp ht
  have hsends : ∀ t ∈ gossips (L.submitRaw P env (.str taskId) payload shardId submitterKey).out,
      ∀ taskId', t.taskId = .str taskId' →
      (L.submitRaw P env (.str taskId) payload shardId submitterKey).ledger.find? taskId' =
        some t := by
    intro t ht taskId' hid
    rw [hsent t ht] at hid ⊢
    rw [← PyVal.str.inj (hreg.id.symm.trans hid)]
    exact hself
  refine ⟨⟨⟨rfl, hdeed.kept.filed.textKeys, fun taskId' r htops => ?_,
    fun t ht taskId' hid => tops_self (hsends t ht taskId' hid), Or.inl rfl⟩,
    fun taskId' t ht => ?_, fun t ht => Or.inr ?_, hsends⟩, fun taskId' hheld => ?_⟩
  · rcases htops with ⟨old, hold, hle⟩
    by_cases hid : taskId' = taskId
    · rw [hid] at hold
      exact absurd ⟨old, hold⟩ hnew
    · exact ⟨old, (hother taskId' hid).trans hold, hle⟩
  · by_cases hid : taskId' = taskId
    · rw [hid] at ht
      rw [← Option.some.inj (hself.symm.trans ht)]
      exact Or.inr (Or.inr hnone)
    · exact Or.inl ((hother taskId' hid).symm.trans ht)
  · rw [hsent t ht]
    exact hnone
  · rcases hheld with ⟨t, ht, hmine⟩
    by_cases hid : taskId' = taskId
    · rw [hid, hself] at ht
      rw [isMine_iff, ← Option.some.inj ht, hnone] at hmine
      cases hmine.1
    · rw [hother taskId' hid] at ht
      exact ⟨t, ht, hmine⟩

theorem forward_same {L L' : TaskLedger} {told : List Task} (htexts : TextKeys L)
    (htasks : L'.tasks = L.tasks) (hdisk : L'.disk = L.disk) (hkey : L'.ourKey = L.ourKey)
    (hknown : ∀ t ∈ told, ∀ taskId, t.taskId = .str taskId → Tops L taskId t) :
    Forward L L' told where
  key := hkey
  texts := by
    unfold TextKeys
    rw [htasks]
    exact htexts
  tops := fun taskId r => (tops_congr htasks taskId r).mpr
  covers := fun t ht taskId hid => (tops_congr htasks taskId t).mpr (hknown t ht taskId hid)
  file := Or.inr (unsaved_same htasks hdisk hkey)

/-! ## Keeping up -/

/-- The ledger tops what its node was told, the file tops what the ledger does, and a
    lease in the file is held. -/
structure Abreast (news : List Task) (L : TaskLedger) : Prop where
  table : ∀ t ∈ news, ∀ taskId, t.taskId = .str taskId → Tops L taskId t
  file : ∀ taskId r, Tops L taskId r → Tops L.load taskId r
  held : ∀ taskId, Held L.load taskId → Held L taskId

variable {news told : List Task} {L L' : TaskLedger}

theorem abreast_blank (htasks : L.tasks = Dict.empty) (hdisk : L.disk = none) :
    Abreast [] L := by
  have hload : L.load.tasks = L.tasks := by
    unfold load
    rw [hdisk, htasks]
    rfl
  refine ⟨fun t ht => (List.not_mem_nil ht).elim, fun taskId r => ?_, fun taskId => ?_⟩
  · exact (tops_congr hload taskId r).mpr
  · exact (held_congr hload rfl taskId).mp

/-- A ledger that goes forward keeps up. -/
theorem Abreast.next (h : Abreast news L) (hf : Forward L L' told) : Abreast (news ++ told) L' := by
  have hwritten : L'.disk = L'.persist.disk → L'.load.tasks = L'.tasks := fun hdisk =>
    (load_of_disk (L := L'.persist) hdisk).trans (load_persist hf.texts)
  refine ⟨fun t ht taskId hid => ?_, fun taskId r htops => ?_, fun taskId hheld => ?_⟩
  · rcases List.mem_append.mp ht with hold | hnew
    · exact hf.tops taskId t (h.table t hold taskId hid)
    · exact hf.covers t hnew taskId hid
  · rcases hf.file with hdisk | hunsaved
    · exact (tops_congr (hwritten hdisk) taskId r).mpr htops
    · -- The file is the old one, which was as new as the table.
      have hfile := h.file taskId r (hunsaved.tops taskId r htops)
      exact (tops_congr (load_of_disk hunsaved.disk) taskId r).mpr hfile
  · rcases hf.file with hdisk | hunsaved
    · exact (held_congr (hwritten hdisk) rfl taskId).mp hheld
    · have hfile := (held_congr (load_of_disk hunsaved.disk) hf.key taskId).mp hheld
      exact hunsaved.held taskId (h.held taskId hfile)

/-- A process that starts anew has kept up with what is in its file. -/
theorem Abreast.load (h : Abreast news L) : Abreast news L.load := by
  have hagain : L.load.load.tasks = L.load.tasks := load_of_disk rfl
  refine ⟨fun t ht taskId hid => h.file taskId t (h.table t ht taskId hid),
    fun taskId r => ?_, fun taskId => ?_⟩
  · exact (tops_congr hagain taskId r).mpr
  · exact (held_congr hagain rfl taskId).mp

end WhisperNet
