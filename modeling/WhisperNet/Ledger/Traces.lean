import WhisperNet.Crypto.Reference
import WhisperNet.Ledger.Calls
import Mathlib.Data.Set.Finite.Basic

/-!
# What a Rejected Update Leaves Behind

`handle_ledger_update` notes the id of a message before it looks at the rest of
it. A message that is then refused, for its signature, for a missing record or
for a malformed one, has therefore already taken its id, and the genuine update
that carries the same id is dropped as a repetition.

So a message leaves no trace exactly when the check for repetitions stopped it
before anything else did (`leavesNoTrace_iff`). Where the table was not written
the id is all it leaves: a continuation that uses neither that id nor one noted
earlier ends with the same records (`unwritten_same_tasks`).

## Main definitions

* `Stopped`: The check for repetitions drops the message.
* `Rejected`: The message is dropped for what it carries, or the handler raises.
* `received`: The ledger after a sequence of messages.
* `LeavesNoTrace`: No continuation tells whether the message was delivered.
* `Alike`: Two ledgers that differ in the ids they noted.

## Theorems

* `leavesNoTrace_iff`: Which messages leave no trace.
* `update_alike`: Ledgers alike stay so under a message with a new id.
* `unwritten_same_tasks`: What a message that wrote nothing can change.
* `rejected_unwritten`: Messages refused before the merge write nothing.
* `Forged.leaves_trace`: A forged copy that arrives first, and the genuine
  update after it.
-/

namespace WhisperNet

open PyVal (get)

namespace TaskLedger

/-- The message has no id, or its id was noted before. -/
def Stopped (L : TaskLedger) (msg : Msg) : Prop :=
  (get msg (lit "msg_id")).truthy = false ∨
    pyIn (get msg (lit "msg_id")) L.seenIds.items = true

/-- The signature is invalid, the record is missing, or the handler raises. -/
def Rejected (P : Primitives) (L : TaskLedger) (msg : Msg) : Prop :=
  verify P msg = false ∨ (get msg (lit "task")).truthy = false ∨
    ∃ e, (L.handleLedgerUpdate P msg).ret = .error e

def received (P : Primitives) (L : TaskLedger) (msgs : List Msg) : TaskLedger :=
  msgs.foldl (fun L msg => (L.handleLedgerUpdate P msg).ledger) L

/-- However the messages go on, the table ends as if this one had not come. -/
def LeavesNoTrace (P : Primitives) (L : TaskLedger) (msg : Msg) : Prop :=
  ∀ msgs, (received P L (msg :: msgs)).tasks = (received P L msgs).tasks

/-! ## An update under a given id -/

/-- An unsigned update of a new task, under the id of another message. -/
def probe (id : PyVal) (t : Task) : Msg := [(lit "msg_id", id), (lit "task", .dict t.toDict)]

def probeTask (taskId : PyStr) : Task where
  taskId := .str taskId
  payload := .str []
  shardId := .int 0
  status := .pending
  leasedBy := .none
  leaseExpires := .float 0
  result := .none
  createdAt := .float 0

theorem probe_applied (P : Primitives) {L : TaskLedger} {id : PyVal} {taskId : PyStr}
    (hfresh : ¬ Stopped L (probe id (probeTask taskId)))
    (hnew : L.tasks.get? (.str taskId) = none) :
    (L.handleLedgerUpdate P (probe id (probeTask taskId))).ledger.tasks =
      L.tasks.set (.str taskId) (probeTask taskId) := by
  have hread : Task.fromDict (probeTask taskId).toDict = .ok (probeTask taskId) :=
    Task.fromDict_toDict _
  have htask : get (probe id (probeTask taskId)) (lit "task") = .dict (probeTask taskId).toDict :=
    rfl
  have hverify : verify P (probe id (probeTask taskId)) = true := rfl
  have htruthy : (PyVal.dict (probeTask taskId).toDict).truthy = true := rfl
  have hkey : hashKey (probeTask taskId).taskId = .ok (.str taskId) := rfl
  unfold Stopped at hfresh
  unfold handleLedgerUpdate handleFresh
  rw [if_neg hfresh]
  simp only [hverify, htask, htruthy, hread, hkey, Bool.true_eq_false, if_false]
  -- Nothing is held under the id, so the merge takes any record.
  rcases mergeTask_cases { L with seenIds := L.seenIds.append id } (probe id (probeTask taskId))
    (.str taskId) (probeTask taskId) with ⟨_, hrejects, _⟩ | ⟨hset, _⟩
  · refine absurd ?_ hrejects
    simp only [hnew, accepts]
  · exact hset

/-- A finite set of keys leaves a string free. -/
theorem exists_new_id (ks : List Key) : ∃ taskId : PyStr, .str taskId ∉ ks := by
  have hinj : Function.Injective Key.str := fun s s' h => Key.str.inj h
  rcases (Set.infinite_range_of_injective hinj).exists_notMem_finset ks.toFinset with
    ⟨k, ⟨taskId, hk⟩, hnot⟩
  exact ⟨taskId, fun hmem => hnot (by rw [← hk, List.mem_toFinset]; exact hmem)⟩

theorem get?_of_not_mem_keys {L : TaskLedger} {k : Key} (h : k ∉ L.tasks.entries.map Prod.fst) :
    L.tasks.get? k = none := (lookup_eq_none_iff k _).mpr h

/-! ## The exact condition -/

theorem stopped_same (P : Primitives) {L : TaskLedger} {msg : Msg} (h : Stopped L msg) :
    (L.handleLedgerUpdate P msg).ledger = L := by
  unfold Stopped at h
  unfold handleLedgerUpdate
  rw [if_pos h]

/-- A message that is not stopped has its id noted, whatever becomes of it. -/
theorem stopped_after (P : Primitives) {L : TaskLedger} {msg : Msg} (h : ¬ Stopped L msg)
    {msg' : Msg} (hid : get msg' (lit "msg_id") = get msg (lit "msg_id")) :
    Stopped (L.handleLedgerUpdate P msg).ledger msg' := by
  rcases update_merged P L msg with ⟨tasks, disk, hmerged⟩
  have hnoted : noted L msg = L.seenIds.append (get msg (lit "msg_id")) := if_neg h
  have hmem : get msg (lit "msg_id") ∈ (L.seenIds.append (get msg (lit "msg_id"))).items :=
    (L.seenIds.recent_append_self _ (by decide)).mem
  right
  rw [hmerged, hid]
  simp only [hnoted]
  exact List.any_eq_true.mpr ⟨_, hmem, pyEq_refl _⟩

theorem leavesNoTrace_of_stopped (P : Primitives) {L : TaskLedger} {msg : Msg}
    (h : Stopped L msg) : LeavesNoTrace P L msg := by
  intro msgs
  have hsame : received P L (msg :: msgs) =
      received P (L.handleLedgerUpdate P msg).ledger msgs := rfl
  rw [hsame, stopped_same P h]

/-- A message that was not stopped is told by an update under its id, for a
    task neither ledger knows: one ledger applies it and the other does not. -/
theorem not_leavesNoTrace (P : Primitives) {L : TaskLedger} {msg : Msg} (h : ¬ Stopped L msg) :
    ¬ LeavesNoTrace P L msg := by
  intro htrace
  rcases exists_new_id (L.tasks.entries.map Prod.fst ++
    (L.handleLedgerUpdate P msg).ledger.tasks.entries.map Prod.fst) with ⟨taskId, hnew⟩
  rw [List.mem_append, not_or] at hnew
  have hid : get (probe (get msg (lit "msg_id")) (probeTask taskId)) (lit "msg_id") =
      get msg (lit "msg_id") := rfl
  have hfresh : ¬ Stopped L (probe (get msg (lit "msg_id")) (probeTask taskId)) := by
    unfold Stopped
    rw [hid]
    exact h
  have hruns := htrace [probe (get msg (lit "msg_id")) (probeTask taskId)]
  simp only [received, List.foldl_cons, List.foldl_nil] at hruns
  -- The ledger that noted the id drops the probe, the other applies it.
  rw [stopped_same P (stopped_after P h hid),
    probe_applied P hfresh (get?_of_not_mem_keys hnew.1)] at hruns
  have hnone : (L.handleLedgerUpdate P msg).ledger.tasks.get? (.str taskId) = none :=
    get?_of_not_mem_keys hnew.2
  rw [hruns, Dict.get?_set_self] at hnone
  exact absurd hnone (by simp only [reduceCtorEq, not_false_eq_true])

/-- A message, rejected or not, leaves no trace if and only if the check for
    repetitions drops it before its signature and its record are looked at. -/
theorem leavesNoTrace_iff (P : Primitives) (L : TaskLedger) (msg : Msg) :
    LeavesNoTrace P L msg ↔ Stopped L msg := by
  constructor
  · intro htrace
    by_contra hfresh
    exact not_leavesNoTrace P hfresh htrace
  · exact leavesNoTrace_of_stopped P

/-! ## What the id can change -/

/-- Two ledgers with the same records, whose notes differ in old ids only. -/
structure Alike (old : List PyVal) (L L' : TaskLedger) : Prop where
  tasks : L'.tasks = L.tasks
  notes : Window.AgreeOff old L.seenIds L'.seenIds

theorem mergeTask_tasks (L : TaskLedger) (msg : Msg) (key : Key) (t : Task) :
    (L.mergeTask msg key t).ledger.tasks =
      if accepts (L.tasks.get? key) t = .ok true then L.tasks.set key t else L.tasks := by
  rcases mergeTask_cases L msg key t with ⟨htasks, hrejects, _⟩ | ⟨htasks, haccepts, _⟩
  · rw [htasks, if_neg hrejects]
  · rw [htasks, if_pos haccepts]

/-- Past the check for repetitions, the records that result depend on the
    records held and on the message. -/
theorem handleFresh_tasks (P : Primitives) (msg : Msg) {L L' : TaskLedger}
    (h : L'.tasks = L.tasks) :
    (L'.handleFresh P msg).ledger.tasks = (L.handleFresh P msg).ledger.tasks := by
  unfold handleFresh
  -- Each guard reads the message alone, which is the same for both.
  split
  · exact h
  · split
    · exact h
    · split
      · split
        · exact h
        · split
          · exact h
          · rw [mergeTask_tasks, mergeTask_tasks, h]
      · exact h

/-- A message whose id is not among the old ones is stopped by both ledgers or
    by neither, and does the same to the tables. -/
theorem update_alike (P : Primitives) {old : List PyVal} {L L' : TaskLedger} (h : Alike old L L')
    {msg : Msg} (hnew : pyIn (get msg (lit "msg_id")) old = false) :
    Alike old (L.handleLedgerUpdate P msg).ledger (L'.handleLedgerUpdate P msg).ledger := by
  -- An id that is not old is noted by both or by neither.
  have hin : pyIn (get msg (lit "msg_id")) L.seenIds.items =
      pyIn (get msg (lit "msg_id")) L'.seenIds.items := h.notes.any_eq _ hnew
  rcases update_merged P L msg with ⟨tasks, disk, hmerged⟩
  rcases update_merged P L' msg with ⟨tasks', disk', hmerged'⟩
  constructor
  · unfold handleLedgerUpdate
    rw [hin]
    split
    · exact h.tasks
    · exact handleFresh_tasks P msg h.tasks
  · rw [hmerged, hmerged']
    unfold noted
    rw [hin]
    split
    · exact h.notes
    · exact h.notes.append _

theorem received_alike (P : Primitives) {old : List PyVal} (msgs : List Msg)
    (hnew : ∀ msg ∈ msgs, pyIn (get msg (lit "msg_id")) old = false) {L L' : TaskLedger}
    (h : Alike old L L') : Alike old (received P L msgs) (received P L' msgs) := by
  induction msgs generalizing L L' with
  | nil => exact h
  | cons msg msgs ih =>
      exact ih (fun m hm => hnew m (List.mem_cons_of_mem _ hm))
        (update_alike P h (hnew msg (List.mem_cons_self ..)))

/-- A message that wrote no record is told only by its id, or by an id noted
    before it that its own has pushed out. -/
theorem unwritten_same_tasks (P : Primitives) (L : TaskLedger) (msg : Msg)
    (hsame : (L.handleLedgerUpdate P msg).ledger.tasks = L.tasks) (msgs : List Msg)
    (hnew : ∀ m ∈ msgs,
      pyIn (get m (lit "msg_id")) (L.seenIds.items ++ [get msg (lit "msg_id")]) = false) :
    (received P L (msg :: msgs)).tasks = (received P L msgs).tasks := by
  have hstart : Alike (L.seenIds.items ++ [get msg (lit "msg_id")])
      (L.handleLedgerUpdate P msg).ledger L := by
    refine ⟨hsame.symm, ?_⟩
    rcases update_merged P L msg with ⟨tasks, disk, hmerged⟩
    rw [hmerged]
    unfold noted
    split
    -- A message that was stopped leaves the notes as they were.
    · exact ⟨L.seenIds.items, L.seenIds.items, [], (List.append_nil _).symm,
        (List.append_nil _).symm, fun x hx => List.mem_append_left _ hx,
        fun x hx => List.mem_append_left _ hx⟩
    · exact L.seenIds.agreeOff_append _
  exact (received_alike P msgs hnew hstart).tasks.symm

/-- A bad signature or a missing record keeps the message from the table. -/
theorem rejected_unwritten (P : Primitives) (L : TaskLedger) (msg : Msg)
    (h : verify P msg = false ∨ (get msg (lit "task")).truthy = false) :
    (L.handleLedgerUpdate P msg).ledger.tasks = L.tasks := by
  unfold handleLedgerUpdate handleFresh
  split
  · rfl
  · rcases h with hverify | htask
    · rw [if_pos hverify]
    · split
      · rfl
      · rfl

end TaskLedger

/-! ## A forged copy that arrives first -/

namespace Forged

open TaskLedger

def ledger : TaskLedger where
  ourKey := lit "ab"

/-- The update of a task as its author sends it, without a signature. -/
def genuine : Msg := probe (.str (lit "m1")) (probeTask (lit "t1"))

/-- The same update with a signature that nobody made. -/
def forged : Msg :=
  genuine ++ [(lit "signature", .str (lit "AAAA")), (lit "signing_key", .str (lit "00"))]

/-- The forged copy is dropped, and then so is the update it copied. -/
theorem leaves_trace : Rejected reference ledger forged ∧
    (received reference ledger [genuine]).tasks.values = [probeTask (lit "t1")] ∧
    (received reference ledger [forged, genuine]).tasks.values = [] ∧
    ¬ LeavesNoTrace reference ledger forged := by
  have hverify : verify reference forged = false := by decide +kernel
  have happlied : (received reference ledger [genuine]).tasks.values = [probeTask (lit "t1")] := by
    decide +kernel
  have hdropped : (received reference ledger [forged, genuine]).tasks.values = [] := by
    decide +kernel
  refine ⟨Or.inl hverify, happlied, hdropped, fun h => ?_⟩
  have hsame := congrArg Dict.values (h [genuine])
  rw [happlied, hdropped] at hsame
  exact absurd hsame (by simp only [List.nil_eq, reduceCtorEq, not_false_eq_true])

end Forged

end WhisperNet
