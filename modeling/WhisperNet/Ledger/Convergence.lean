import Mathlib.Data.Int.ConditionallyCompleteOrder
import WhisperNet.Crypto.Reference
import WhisperNet.Ledger.Calls
import WhisperNet.Lib.StickyMax

/-!
# Convergence of the Merge

Two nodes that process the same updates about a task in different orders. The
merge keeps a record per task and compares versions, and on updates from
honest nodes it is the sticky maximum of the library, with completed records
final and the version as the rank (`merge_update`). So what a node ends up with
is the outcome of the records in the order they arrived, and two nodes agree
whatever the orders exactly when no tie is left to the order of arrival
(`converge_iff`).

The lease expiry takes no part in the comparison. Two nodes that claim the same
expired lease from the same version make two records of one version, and every
receiver stays with the one it heard of first.

## Main definitions

* `Update`: An update of a task, as an honest node sends it.
* `mergeAll`: A ledger after a list of updates.
* `Ready`: A ledger that knows neither the task nor the updates.
* `candidates`: The records a ledger chooses from.

## Theorems

* `gossip_update`: What an honest node gossips is an update.
* `update_merges`: An update that is new goes to the merge.
* `merge_update`: One update is one step of the sticky maximum.
* `mergeAll_find?`: The record after a list of updates.
* `converge_iff`: Two nodes always agree exactly when the records are decisive.
* `merge_normal_form`: The record after any updates, in closed form.
* `racers_disagree`: Two claims of an expired lease that leave two holders.
-/

namespace WhisperNet

open TaskLedger
open PyVal (get)

/-- The version of a record as an integer. -/
def Task.rank (t : Task) : Int := match t.version with
  | .int n => n
  | _ => 0

def Task.Completed (t : Task) : Prop := t.status = .completed

instance : DecidablePred Task.Completed := fun t => inferInstanceAs (Decidable (t.status = _))

/-- An update of `taskId` that passes the signature check: its message id is a
    string, and its record has the id of the task and an integer version. -/
structure Update (P : Primitives) (taskId : PyStr) where
  msg : Msg
  id : PyStr
  record : Task
  msg_id : get msg (lit "msg_id") = .str id
  id_nonempty : id ≠ []
  carries : ∃ d, get msg (lit "task") = .dict d ∧ Task.fromDict d = .ok record
  record_id : record.taskId = .str taskId
  version : record.version = .int record.rank
  accepted : verify P msg = true

/-- What an honest node sends about a record of the task is an update. -/
theorem gossip_update (P : Primitives) (hP : P.Lawful) (L : TaskLedger) (uuid taskId : PyStr)
    (t : Task) (msg : Msg) (hmsg : L.gossipTask P uuid t = .ok msg) (huuid : uuid ≠ [])
    (hid : t.taskId = .str taskId) (hv : t.version = .int t.rank) :
    ∃ u : Update P taskId, u.msg = msg ∧ u.id = uuid ∧ u.record = t := by
  have hfields := gossip_fields hmsg
  unfold gossipTask at hmsg
  have haccepted : verify P msg = true := by
    cases hk : L.signer.privateKey with
    | none =>
        unfold Signer.sign at hmsg
        simp only [hk, Except.ok.injEq] at hmsg
        rw [← hmsg]
        exact verify_unsigned P _ (Or.inl rfl)
    | some k =>
        rcases sign_ok P L.signer k _ msg hk hmsg with ⟨d, hd, hsig, hkey⟩
        exact (verify_signature_iff P hP k d msg hsig hkey).mpr hd
  exact ⟨{
    msg := msg
    id := uuid
    record := t
    msg_id := hfields.1
    id_nonempty := huuid
    carries := ⟨_, hfields.2, Task.fromDict_toDict t⟩
    record_id := hid
    version := hv
    accepted := haccepted }, rfl, rfl, rfl⟩

/-- The register the merge runs for one task. -/
abbrev mergeStep : Option Task → Task → Option Task := StickyMax.stick Task.Completed Task.rank

/-- The records the merge has held so far compare by their integer versions. -/
def Ranked (held : Option Task) : Prop := ∀ t, held = some t → t.version = .int t.rank

theorem accepts_ranked (held : Option Task) (incoming : Task) (hheld : Ranked held)
    (hv : incoming.version = .int incoming.rank) :
    (if accepts held incoming = .ok true then some incoming else held)
      = mergeStep held incoming := by
  cases held with
  | none => rfl
  | some t =>
      have ht := hheld t rfl
      by_cases hc : t.status = .completed
      · have hfinal : t.Completed := hc
        simp only [accepts, if_pos hc, StickyMax.stick, if_pos hfinal, Except.ok.injEq,
          Bool.false_eq_true, if_false]
      · have hfinal : ¬ t.Completed := hc
        have hgt : PyVal.gt incoming.version t.version
            = .ok (decide (t.rank < incoming.rank)) := by
          rw [PyVal.gt, hv, ht, lt_int]
        simp only [accepts, if_neg hc, hgt, StickyMax.stick, if_neg hfinal]
        by_cases hlt : t.rank < incoming.rank
        · simp only [hlt, decide_true, if_true, true_or]
        · simp only [hlt, decide_false, Except.ok.injEq, decide_eq_true_eq, false_or]
          rfl

/-- An update the ledger has not seen goes to the merge, on the ledger that has
    recorded its id. -/
theorem update_merges (P : Primitives) (taskId : PyStr) (u : Update P taskId) (L : TaskLedger)
    (hfresh : .str u.id ∉ L.seenIds.items) :
    L.handleLedgerUpdate P u.msg =
      ({ L with seenIds := L.seenIds.append (get u.msg (lit "msg_id")) } : TaskLedger).mergeTask
        u.msg (.str taskId) u.record := by
  rcases u.carries with ⟨d, hd, hrec⟩
  have hunseen : ¬ ((get u.msg (lit "msg_id")).truthy = false ∨
      pyIn (get u.msg (lit "msg_id")) L.seenIds.items = true) := by
    rw [u.msg_id]
    rintro (h | h)
    · rw [str_truthy _ u.id_nonempty] at h
      exact absurd h (by decide)
    · rcases List.any_eq_true.mp h with ⟨x, hx, hxe⟩
      rw [pyEq_str] at hxe
      exact hfresh (hxe ▸ hx)
  have htruthy : (get u.msg (lit "task")).truthy = true := by
    rw [hd]
    cases d with
    | nil => exact absurd hrec (fun hc => nomatch hc)
    | cons e es => rfl
  have hkey : hashKey u.record.taskId = .ok (.str taskId) := by
    rw [u.record_id]
    rfl
  unfold handleLedgerUpdate handleFresh
  rw [if_neg hunseen, if_neg (by rw [u.accepted]; decide), if_neg (by rw [htruthy]; decide), hd]
  simp only [hrec, hkey]

/-- One update of the task is one step of the register. -/
theorem merge_update (P : Primitives) (taskId : PyStr) (u : Update P taskId) (L : TaskLedger)
    (hheld : Ranked (L.find? taskId)) (hfresh : .str u.id ∉ L.seenIds.items) :
    (L.handleLedgerUpdate P u.msg).ledger.find? taskId
      = mergeStep (L.find? taskId) u.record := by
  rw [← accepts_ranked _ _ hheld u.version]
  have hmerge := mergeTask_cases
    { L with seenIds := L.seenIds.append (get u.msg (lit "msg_id")) } u.msg (.str taskId) u.record
  rw [← update_merges P taskId u L hfresh] at hmerge
  unfold find?
  rcases hmerge with ⟨htasks, hrej, _⟩ | ⟨htasks, hacc, _⟩
  · rw [htasks, if_neg hrej]
  · rw [htasks, if_pos hacc, Dict.get?_set_self]

/-- The only id a message adds to the dedup cache is its own. -/
theorem mem_seenIds_update (P : Primitives) (L : TaskLedger) (msg : Msg) (v : PyVal)
    (h : v ∈ (L.handleLedgerUpdate P msg).ledger.seenIds.items) :
    v ∈ L.seenIds.items ∨ v = get msg (lit "msg_id") := by
  rcases update_merged P L msg with ⟨tasks, disk, hmerged⟩
  rw [hmerged] at h
  simp only [noted] at h
  split at h
  · exact Or.inl h
  · exact L.seenIds.mem_append _ _ h

/-- A ledger after a list of updates. -/
def mergeAll (P : Primitives) {taskId : PyStr} (L : TaskLedger) (us : List (Update P taskId)) :
    TaskLedger :=
  us.foldl (fun L u => (L.handleLedgerUpdate P u.msg).ledger) L

/-- A ledger that knows neither the task nor any of the updates. -/
structure Ready {P : Primitives} {taskId : PyStr} (L : TaskLedger) (us : List (Update P taskId)) :
    Prop where
  unknown : L.find? taskId = none
  unseen : ∀ u ∈ us, .str u.id ∉ L.seenIds.items

theorem ranked_mergeStep (held : Option Task) (t : Task) (hheld : Ranked held)
    (ht : t.version = .int t.rank) : Ranked (mergeStep held t) := by
  intro t' ht'
  cases held with
  | none =>
      rw [← Option.some.inj ht']
      exact ht
  | some y =>
      simp only [StickyMax.stick] at ht'
      split at ht'
      · exact hheld t' ht'
      · split at ht'
        · rw [← Option.some.inj ht']
          exact ht
        · exact hheld t' ht'

/-- The record of the task after a list of updates with different ids. -/
theorem mergeAll_find? (P : Primitives) (taskId : PyStr) (us : List (Update P taskId))
    (L : TaskLedger) (hids : (us.map Update.id).Nodup) (hheld : Ranked (L.find? taskId))
    (hunseen : ∀ u ∈ us, .str u.id ∉ L.seenIds.items) :
    (mergeAll P L us).find? taskId
      = (us.map Update.record).foldl mergeStep (L.find? taskId) := by
  induction us generalizing L with
  | nil => rfl
  | cons u us ih =>
      rw [List.map_cons, List.nodup_cons] at hids
      have hstep := merge_update P taskId u L hheld (hunseen u (List.mem_cons_self ..))
      have hrest : ∀ v ∈ us, .str v.id ∉ (L.handleLedgerUpdate P u.msg).ledger.seenIds.items := by
        intro v hv hmem
        rcases mem_seenIds_update P L u.msg _ hmem with hold | hnew
        · exact hunseen v (List.mem_cons_of_mem _ hv) hold
        · rw [u.msg_id, PyVal.str.injEq] at hnew
          exact hids.1 (List.mem_map.mpr ⟨v, hv, hnew⟩)
      have hranked : Ranked ((L.handleLedgerUpdate P u.msg).ledger.find? taskId) := by
        rw [hstep]
        exact ranked_mergeStep _ _ hheld u.version
      have hih := ih (L.handleLedgerUpdate P u.msg).ledger hids.2 hranked hrest
      rw [hstep] at hih
      exact hih

theorem mergeAll_ready (P : Primitives) (taskId : PyStr) (us ys : List (Update P taskId))
    (L : TaskLedger) (hids : (us.map Update.id).Nodup) (hr : Ready L us) (hp : ys.Perm us) :
    (mergeAll P L ys).find? taskId
      = StickyMax.outcome Task.Completed Task.rank (ys.map Update.record) := by
  have hids' : (ys.map Update.id).Nodup := ((hp.map Update.id).nodup_iff).mpr hids
  rw [mergeAll_find? P taskId ys L hids' (by rw [hr.unknown]; exact fun t ht => nomatch ht)
    (fun u hu => hr.unseen u (hp.mem_iff.mp hu)), hr.unknown]
  rfl

/-- Any two nodes without the task that process the same updates in any two
    orders hold equal records of it, exactly when the records leave no tie: the
    completed ones among them are all equal, and if none is completed those of
    the highest version are. -/
theorem converge_iff (P : Primitives) (taskId : PyStr) (us : List (Update P taskId))
    (hids : (us.map Update.id).Nodup) :
    (∀ L L' : TaskLedger, Ready L us → Ready L' us → ∀ ys zs, ys.Perm us → zs.Perm us →
        (mergeAll P L ys).find? taskId = (mergeAll P L' zs).find? taskId) ↔
      StickyMax.Decisive Task.Completed Task.rank (us.map Update.record) := by
  rw [← StickyMax.outcome_perm_iff]
  constructor
  · intro h rs ss hrs hss
    -- An order of the records is an order of the updates.
    have hlift : ∀ rs : List Task, rs.Perm (us.map Update.record) →
        ∃ ys, rs = List.map Update.record ys ∧ ys.Perm us := by
      intro rs hrs
      have hcomp := congrFun (congrFun (List.eq_map_comp_perm Update.record) rs) us
      exact (hcomp.mpr hrs)
    rcases hlift rs hrs with ⟨ys, rfl, hys⟩
    rcases hlift ss hss with ⟨zs, rfl, hzs⟩
    have hready : Ready ({ ourKey := [] } : TaskLedger) us :=
      ⟨rfl, fun u _ hmem => absurd hmem List.not_mem_nil⟩
    have heq := h _ _ hready hready ys zs hys hzs
    rw [mergeAll_ready P taskId us ys _ hids hready hys,
      mergeAll_ready P taskId us zs _ hids hready hzs] at heq
    exact heq
  · intro h L L' hL hL' ys zs hys hzs
    rw [mergeAll_ready P taskId us ys L hids hL hys, mergeAll_ready P taskId us zs L' hids hL' hzs]
    exact h _ _ (hys.map _) (hzs.map _)

/-- What a ledger knows of a task: the record it holds, and the ones that
    arrive. -/
def candidates {P : Primitives} {taskId : PyStr} (L : TaskLedger) (us : List (Update P taskId)) :
    List Task :=
  (L.find? taskId).toList ++ us.map Update.record

/-- From any record of the task, or none, updates with fresh and different ids
    leave the first completed record, the one before them counted first, and
    without a completed one the earliest of the greatest version. So different
    versions, and one completed record at most, leave the same record in every
    order. -/
theorem merge_normal_form (P : Primitives) (taskId : PyStr) (us : List (Update P taskId))
    (L : TaskLedger) (hids : (us.map Update.id).Nodup) (hheld : Ranked (L.find? taskId))
    (hunseen : ∀ u ∈ us, .str u.id ∉ L.seenIds.items) :
    (mergeAll P L us).find? taskId =
        ((candidates L us).find? (fun t => t.Completed)).or ((candidates L us).argmax Task.rank) ∧
      (((candidates L us).map Task.rank).Nodup →
        ((candidates L us).filter (fun t => t.Completed)).length ≤ 1 →
        ∀ ys, ys.Perm us → (mergeAll P L ys).find? taskId = (mergeAll P L us).find? taskId) := by
  have hmerge : ∀ ys : List (Update P taskId), ys.Perm us → (mergeAll P L ys).find? taskId =
      StickyMax.outcome Task.Completed Task.rank (candidates L ys) := by
    intro ys hys
    rw [mergeAll_find? P taskId ys L (((hys.map Update.id).nodup_iff).mpr hids) hheld
      (fun u hu => hunseen u (hys.mem_iff.mp hu)), StickyMax.foldl_stick_eq_outcome]
    rfl
  refine ⟨?_, fun hranks hone ys hys => ?_⟩
  · rw [hmerge us (List.Perm.refl us), StickyMax.outcome_eq]
  · -- No tie is left, so the order of what is known does not matter.
    have hdecisive := StickyMax.decisive_of_nodup Task.Completed Task.rank _ hranks hone
    have hperm : (candidates L ys).Perm (candidates L us) :=
      List.Perm.append_left _ (hys.map Update.record)
    rw [hmerge ys hys, hmerge us (List.Perm.refl us)]
    exact (StickyMax.outcome_perm_iff Task.Completed Task.rank _).mpr hdecisive _ _ hperm
      (List.Perm.refl _)

namespace Race

/-- A lease of a node that is gone. -/
def stale : Task where
  taskId := .str (lit "t")
  payload := .str (lit "p")
  shardId := .int 1
  status := .inProgress
  leasedBy := .str (lit "c")
  leaseExpires := .float 30
  result := .none
  createdAt := .float 0
  version := .int 2

/-- The update with which a node claims the stale lease. -/
noncomputable def claim (key : PyStr) (now : ℚ) : Msg :=
  let L : TaskLedger := { ourKey := key, tasks := Dict.empty.set (.str (lit "t")) stale }
  match (L.claimTask (lit "t") now).out with
  | [.gossip t] => match L.gossipTask reference key t with
    | .ok msg => msg
    | .error _ => []
  | _ => []

/-- Holder, expiry and version after a fresh node has processed some messages. -/
noncomputable def leaseAfter (msgs : List Msg) : Option (PyVal × PyVal × PyVal) :=
  let L := msgs.foldl (fun L m => (L.handleLedgerUpdate reference m).ledger)
    ({ ourKey := lit "d" } : TaskLedger)
  (L.find? (lit "t")).map (fun t => (t.leasedBy, t.leaseExpires, t.version))

/-- Two claims of the same expired lease: who heard of the first one first
    stays with it, although the lease of the second one expires later. -/
theorem racers_disagree :
    leaseAfter [claim (lit "a") 40, claim (lit "b") 45]
        = some (.str (lit "a"), .float 70, .int 3) ∧
      leaseAfter [claim (lit "b") 45, claim (lit "a") 40]
        = some (.str (lit "b"), .float 75, .int 3) := by
  decide +kernel

/-- A node that has the stale lease. -/
def claimant (key : PyStr) : TaskLedger :=
  { ourKey := key, tasks := Dict.empty.set (.str (lit "t")) stale }

/-- What it makes of the task from then on. -/
def claimed (key : PyStr) (now : ℚ) : TaskLedger := ((claimant key).claimTask (lit "t") now).ledger

def renewed (key : PyStr) (now : ℚ) : TaskLedger :=
  (((claimed key now).renewLease (lit "t") (now + 20)).ledger.renewLease (lit "t")
    (now + 40)).ledger

def completed (key : PyStr) (now : ℚ) : TaskLedger :=
  ((claimed key now).completeTask (lit "t") (lit "r") (now + 5) (lit "n")).ledger

def recordOf (L : TaskLedger) : Task := (L.find? (lit "t")).getD stale

/-- Any records of the task with integer versions can arrive, under different ids. -/
theorem exists_updates (ts : List Task)
    (h : ∀ t ∈ ts, t.taskId = .str (lit "t") ∧ t.version = .int t.rank) :
    ∃ us : List (Update reference (lit "t")), us.map Update.record = ts ∧
      (us.map Update.id).Nodup ∧ ∀ u ∈ us, u.id.length ≤ ts.length := by
  induction ts with
  | nil => exact ⟨[], rfl, List.nodup_nil, fun u hu => absurd hu List.not_mem_nil⟩
  | cons t ts ih =>
      rcases ih (fun t' ht' => h t' (List.mem_cons_of_mem _ ht')) with ⟨us, hrecords, hids, hlength⟩
      -- The new id is longer than all the others.
      rcases gossip_update reference reference_lawful { ourKey := lit "a" }
        (List.replicate (ts.length + 1) 0) (lit "t") t _ rfl
        (List.replicate_succ ▸ List.cons_ne_nil _ _) (h t (List.mem_cons_self ..)).1
        (h t (List.mem_cons_self ..)).2 with ⟨u, _, hid, hrecord⟩
      refine ⟨u :: us, by rw [List.map_cons, hrecord, hrecords], ?_, fun v hv => ?_⟩
      · rw [List.map_cons, List.nodup_cons]
        refine ⟨fun hmem => ?_, hids⟩
        rcases List.mem_map.mp hmem with ⟨v, hv, hsame⟩
        have hle := hlength v hv
        rw [hsame, hid, List.length_replicate] at hle
        omega
      · rcases List.mem_cons.mp hv with hhead | htail
        · rw [hhead, hid, List.length_replicate, List.length_cons]
        · exact (hlength v htail).trans (Nat.le_succ _)

/-- Two claims of one version, and the completion that follows the first of them. -/
def contested : List Task :=
  [recordOf (claimed (lit "a") 40), recordOf (claimed (lit "b") 45),
    recordOf (completed (lit "a") 40)]

/-- The completion is older than the second renewal of the other claim. -/
def overtaken : List Task :=
  [recordOf (claimed (lit "b") 45), recordOf (renewed (lit "b") 45),
    recordOf (completed (lit "a") 40)]

/-- All nodes hold the completion, in whatever order they hear of it and of the claims. -/
theorem completion_converges : ∃ us : List (Update reference (lit "t")),
    us.map Update.record = contested ∧
    (∀ L L' : TaskLedger, Ready L us → Ready L' us → ∀ ys zs, ys.Perm us → zs.Perm us →
      (mergeAll reference L ys).find? (lit "t") = (mergeAll reference L' zs).find? (lit "t")) ∧
    (mergeAll reference { ourKey := lit "d" } us).find? (lit "t") =
      some (recordOf (completed (lit "a") 40)) ∧
    (mergeAll reference { ourKey := lit "e" } us.reverse).find? (lit "t") =
      some (recordOf (completed (lit "a") 40)) := by
  rcases exists_updates contested (by decide +kernel) with ⟨us, hrecords, hids, _⟩
  have hall := (converge_iff reference (lit "t") us hids).mpr (by
    rw [hrecords]
    -- Only one of the records is completed.
    have honly : ∀ t ∈ contested, t.Completed → t = recordOf (completed (lit "a") 40) := by
      decide +kernel
    refine ⟨fun x hx y hy hfx hfy => (honly x hx hfx).trans (honly y hy hfy).symm,
      fun hnone => absurd (show (recordOf (completed (lit "a") 40)).Completed by decide +kernel)
        (hnone _ (by decide +kernel))⟩)
  have hready : ∀ key, Ready ({ ourKey := key } : TaskLedger) us := fun key =>
    ⟨rfl, fun u _ hmem => absurd hmem List.not_mem_nil⟩
  have hfirst : (mergeAll reference { ourKey := lit "d" } us).find? (lit "t") =
      some (recordOf (completed (lit "a") 40)) := by
    rw [mergeAll_ready reference (lit "t") us us _ hids (hready _) (List.Perm.refl us), hrecords,
      StickyMax.outcome_eq]
    decide +kernel
  exact ⟨us, hrecords, hall, hfirst,
    (hall _ _ (hready _) (hready _) _ _ us.reverse_perm (List.Perm.refl us)).trans hfirst⟩

/-- A ledger with the stale lease ends with the completion, although a renewal has a
    higher version, and does so in the reverse order too. -/
theorem completion_normal_form : ∃ us : List (Update reference (lit "t")), ∃ L : TaskLedger,
    us.map Update.record = overtaken ∧ L.find? (lit "t") = some stale ∧
    (mergeAll reference L us).find? (lit "t") = some (recordOf (completed (lit "a") 40)) ∧
    (mergeAll reference L us.reverse).find? (lit "t") =
      some (recordOf (completed (lit "a") 40)) := by
  rcases exists_updates overtaken (by decide +kernel) with ⟨us, hrecords, hids, _⟩
  rcases merge_normal_form reference (lit "t") us (claimant (lit "d")) hids
    (fun t ht => by rw [← Option.some.inj ht]; rfl)
    (fun u _ hmem => absurd hmem List.not_mem_nil) with ⟨hform, horder⟩
  have hknown : candidates (claimant (lit "d")) us = stale :: overtaken := by
    rw [candidates, hrecords]
    rfl
  rw [hknown] at hform horder
  have hfirst : (mergeAll reference (claimant (lit "d")) us).find? (lit "t") =
      some (recordOf (completed (lit "a") 40)) := by
    rw [hform]
    decide +kernel
  refine ⟨us, claimant (lit "d"), hrecords, rfl, hfirst, ?_⟩
  rw [horder (by decide +kernel) (by decide +kernel) us.reverse us.reverse_perm]
  exact hfirst

/-- Its version is not the greatest. -/
example : overtaken.map (fun t => (t.status, t.rank)) =
    [(.inProgress, 3), (.inProgress, 5), (.completed, 4)] := by decide +kernel

end Race

end WhisperNet
