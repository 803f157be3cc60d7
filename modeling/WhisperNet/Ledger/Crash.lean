import WhisperNet.Crypto.Reference
import WhisperNet.Ledger.Restart
import WhisperNet.Python.JsonRoundTrip

/-!
# Crashes While Persisting

What a ledger finds again when the process dies inside `_persist`. The file is
opened for writing, which empties it, and the new text is written over some
time, so a crash leaves the old file, or some part of the new text from its
start. `_load` reads that part; when it is not a whole text it logs a warning
and starts with no records.

A part that ends early is never read as a ledger, so what is found is the old
ledger, the new one, or nothing, and nothing is found exactly at the points
between the truncation and the last character.

## Main definitions

* `fileText`: The text `_persist` writes.
* `fileContent`: What `_load` decodes from a text.
* `CrashPoint`: Where in `_persist` the process dies.
* `restart`: The ledger a restart builds from a file.
* `CrashSafe`: It is the one of the old file or the one of the new, and
  `recover_identity` does what it would do there.

## Theorems

* `fileContent_fileText`: A complete text holds the records.
* `fileContent_cut`: A text cut short holds nothing.
* `apply_nonempty`: An operation that writes the file has records to write.
* `persist_atomic_iff`: The crash points that are safe.
-/

namespace WhisperNet

namespace TaskLedger

variable (F : ℚ → Json.FloatText)

/-- The dictionary `_persist` writes. -/
def fileEntries (L : TaskLedger) : Msg :=
  L.tasks.entries.map (fun e => (jsonKey e.1, .dict e.2.toDict))

/-- The text `_persist` writes. -/
def fileText (L : TaskLedger) : PyStr := Json.dumps F (.dict L.fileEntries)

/-- What `_load` finds in a file; any failure to decode it ends the load. -/
def fileContent (text : PyStr) : Option Msg :=
  match Json.loads text with
  | some (.dict entries) => some entries
  | _ => none

/-- Where in `_persist` the process dies. -/
inductive CrashPoint
  /-- before the file is opened -/
  | beforeOpen
  /-- with the file open and this many characters written -/
  | written (n : Nat)

/-- The file a crash leaves, for the ledger before and after the operation. -/
def crashDisk (L L' : TaskLedger) : CrashPoint → Option Msg
  | .beforeOpen => L.disk
  | .written n => fileContent ((L'.fileText F).take n)

/-- A restart of the node with what the file holds. -/
def restart (L : TaskLedger) (disk : Option Msg) : TaskLedger := { L with disk := disk }.load

/-- The ledger found after the crash is the old one or the new one, and
    recovery does what it would do there. -/
def CrashSafe (L L' : TaskLedger) (point : CrashPoint) : Prop :=
  ∃ M, (M = L.load ∨ M = L.restart (fileContent (L'.fileText F))) ∧
    (L.restart (L.crashDisk F L' point)).tasks = M.tasks ∧
    ∀ now, ((L.restart (L.crashDisk F L' point)).recoverIdentity now).ret
        = (M.recoverIdentity now).ret ∧
      ((L.restart (L.crashDisk F L' point)).recoverIdentity now).out
        = (M.recoverIdentity now).out

end TaskLedger

open TaskLedger

section Files

variable (F : ℚ → Json.FloatText)

theorem persist_fileEntries (L : TaskLedger) : L.persist.disk = some L.fileEntries := rfl

/-- A complete text holds the records, if the text can express them. -/
theorem fileContent_fileText (L : TaskLedger) (h : Json.Plain F (.dict L.fileEntries)) :
    fileContent (L.fileText F) = L.persist.disk := by
  unfold fileContent fileText
  rw [Json.loads_dumps, Json.reread_plain F h, persist_fileEntries]

/-- A text cut short holds nothing. -/
theorem fileContent_cut (L : TaskLedger) (n : Nat) (h : n < (L.fileText F).length) :
    fileContent ((L.fileText F).take n) = none := by
  have hrest : (L.fileText F).drop n ≠ [] := by
    intro hc
    have hlen := congrArg List.length hc
    rw [List.length_drop, List.length_nil] at hlen
    omega
  unfold fileContent
  rw [Json.loads_cut F L.fileEntries (List.take_append_drop n (L.fileText F)) hrest]

theorem restart_none (L : TaskLedger) : (L.restart none).tasks = Dict.empty := rfl

/-- The keys of the dictionary of a record. -/
def taskKeys : List PyStr :=
  [lit "task_id", lit "payload", lit "shard_id", lit "status", lit "leased_by",
   lit "lease_expires", lit "result", lit "created_at", lit "version", lit "completed_at",
   lit "submitter_key", lit "encrypted", lit "threshold_t", lit "claimed_at", lit "commitment",
   lit "result_hash"]

theorem keys_toDict (t : Task) : t.toDict.map Prod.fst = taskKeys := rfl

/-- A record comes back as a record. -/
theorem reread_toDict (t : Task) :
    ∃ t' : Task, Json.reread F (.dict t.toDict) = .dict t'.toDict := by
  refine ⟨{
    taskId := Json.reread F t.taskId
    payload := Json.reread F t.payload
    shardId := Json.reread F t.shardId
    status := Status.ofVal (Json.reread F t.status.toVal)
    leasedBy := Json.reread F t.leasedBy
    leaseExpires := Json.reread F t.leaseExpires
    result := Json.reread F t.result
    createdAt := Json.reread F t.createdAt
    version := Json.reread F t.version
    completedAt := Json.reread F t.completedAt
    submitterKey := Json.reread F t.submitterKey
    encrypted := Json.reread F t.encrypted
    thresholdT := Json.reread F t.thresholdT
    claimedAt := Json.reread F t.claimedAt
    commitment := Json.reread F t.commitment
    resultHash := Json.reread F t.resultHash }, ?_⟩
  -- No field name is changed by the way through a file.
  have hjoined : ∀ k ∈ t.toDict.map Prod.fst, Json.Joined k := by
    rw [keys_toDict]
    decide
  have hkeys : ∀ e ∈ t.toDict, Json.rejoin e.1 = e.1 :=
    fun e he => Json.rejoin_joined (hjoined e.1 (List.mem_map_of_mem he))
  have hitems : t.toDict.map (fun e => (Json.rejoin e.1, Json.reread F e.2))
      = t.toDict.map (fun e => (e.1, Json.reread F e.2)) :=
    List.map_congr_left (fun e he => by rw [hkeys e he])
  rw [Json.reread, Json.rereadItems_eq, hitems, Json.collect_nodup]
  · simp only [Task.toDict, List.map_cons, List.map_nil, Status.toVal_ofVal]
  · rw [List.map_map]
    change (t.toDict.map Prod.fst).Nodup
    rw [keys_toDict]
    decide

/-- Loading more entries removes no record. -/
theorem loadTasks_keeps (entries : Msg) (acc : Dict Key Task) (k : Key) (h : acc.get? k ≠ none) :
    (loadTasks entries acc).get? k ≠ none := by
  induction entries, acc using loadTasks.induct with
  | case1 acc => exact h
  | case2 acc key d rest t ht ih =>
      rw [loadTasks, ht]
      refine ih ?_
      rw [Dict.get?_set]
      split
      · exact Option.some_ne_none t
      · exact h
  | case3 acc key d rest e he =>
      rw [loadTasks, he]
      exact h
  | case4 acc e rest hne =>
      rw [loadTasks]
      · exact h
      · exact hne

theorem ne_empty_of_get? {d : Dict Key Task} {k : Key} (h : d.get? k ≠ none) : d ≠ Dict.empty := by
  rintro rfl
  exact h rfl

theorem eq_empty {d : Dict Key Task} (h : ∀ k, d.get? k = none) : d = Dict.empty := by
  apply Dict.ext
  refine List.eq_nil_iff_forall_not_mem.mpr (fun e he => ?_)
  have hfound := (d.mem_entries_iff e.1 e.2).mp he
  rw [h e.1] at hfound
  simp only [reduceCtorEq] at hfound

/-- A complete text of a ledger that has records is found to have some. -/
theorem restart_complete (L L' : TaskLedger) (h : L'.tasks ≠ Dict.empty) :
    (L.restart (fileContent (L'.fileText F))).tasks ≠ Dict.empty := by
  have hentries : L'.tasks.entries ≠ [] := fun hc => h (Dict.ext hc)
  have hcontent : fileContent (L'.fileText F)
      = some (Json.collect (Json.rereadItems F L'.fileEntries)) := by
    unfold fileContent fileText
    rw [Json.loads_dumps]
    rfl
  have hne : Json.collect (Json.rereadItems F L'.fileEntries) ≠ [] := by
    apply Json.collect_items.2
    rw [Json.rereadItems_eq, fileEntries, List.map_map]
    exact fun hc => hentries (List.map_eq_nil_iff.mp hc)
  -- The first entry is a record, and no later one removes it.
  cases hfound : Json.collect (Json.rereadItems F L'.fileEntries) with
  | nil => exact absurd hfound hne
  | cons e rest =>
      rcases e with ⟨key, v⟩
      have hmem : (key, v) ∈ Json.rereadItems F L'.fileEntries :=
        Json.collect_items.1 _ (by rw [hfound]; exact List.mem_cons_self ..)
      rw [Json.rereadItems_eq, fileEntries, List.map_map] at hmem
      rcases List.mem_map.mp hmem with ⟨⟨k, t⟩, _, heq⟩
      rcases reread_toDict F t with ⟨t', ht'⟩
      simp only [Function.comp, ht', Prod.mk.injEq] at heq
      have hload : (L.restart (fileContent (L'.fileText F))).tasks
          = loadTasks rest (Dict.empty.set (.str key) t') := by
        rw [hcontent, hfound, ← heq.2]
        change loadTasks ((key, .dict t'.toDict) :: rest) Dict.empty = _
        rw [loadTasks, Task.fromDict_toDict]
      rw [hload]
      refine ne_empty_of_get? (loadTasks_keeps rest _ (.str key) ?_)
      rw [Dict.get?_set_self]
      exact Option.some_ne_none t'

end Files

/-! ## Operations -/

theorem values_empty {L : TaskLedger} (h : L.tasks = Dict.empty) : L.tasks.values = [] := by
  rw [h]
  rfl

theorem bumpAll_empty {L : TaskLedger} (h : L.tasks = Dict.empty) (assign : Task → Task) :
    (L.bumpAll assign).ledger.disk = L.disk := by
  unfold bumpAll
  rw [values_empty h]
  rfl

/-- A merge that writes the file has the record it installed to write. -/
theorem mergeTask_nonempty (L : TaskLedger) (msg : Msg) (key : Key) (t : Task) :
    (L.mergeTask msg key t).ledger.disk = L.disk ∨
      (L.mergeTask msg key t).ledger.tasks ≠ Dict.empty := by
  have hset : ∀ L' : TaskLedger, L'.tasks = L.tasks.set key t → L'.tasks ≠ Dict.empty := by
    intro L' htasks
    refine ne_empty_of_get? (k := key) ?_
    rw [htasks, Dict.get?_set_self]
    exact Option.some_ne_none t
  unfold mergeTask
  split
  · exact Or.inl rfl
  · exact Or.inl rfl
  · right
    simp only []
    split
    · split
      · exact hset _ rfl
      · exact hset _ rfl
    · exact hset _ rfl

theorem update_nonempty (P : Primitives) (L : TaskLedger) (msg : Msg) :
    (L.handleLedgerUpdate P msg).ledger.disk = L.disk ∨
      (L.handleLedgerUpdate P msg).ledger.tasks ≠ Dict.empty := by
  unfold handleLedgerUpdate
  split
  · exact Or.inl rfl
  · simp only []
    unfold handleFresh
    split
    · exact Or.inl rfl
    · split
      · exact Or.inl rfl
      · split
        · split
          · exact Or.inl rfl
          · split
            · exact Or.inl rfl
            · exact mergeTask_nonempty { L with seenIds := L.seenIds.append _ } msg _ _
        · exact Or.inl rfl

/-- An operation that writes the file has records to write. -/
theorem apply_nonempty (P : Primitives) (L : TaskLedger) (op : Op) :
    (op.apply P L).disk = L.disk ∨ (op.apply P L).tasks ≠ Dict.empty := by
  cases op with
  | update msg => exact update_nonempty P L msg
  | call c =>
      by_cases hempty : L.tasks = Dict.empty
      · -- On an empty ledger only a submission has something to write.
        have hfind : ∀ taskId, L.find? taskId = none := by
          intro taskId
          rw [find?, hempty]
          rfl
        cases c with
        | submitTask env taskId payload shardId submitterKey =>
            right
            refine ne_empty_of_get? (k := .str taskId) ?_
            change (L.tasks.set (.str taskId) _).get? (.str taskId) ≠ none
            rw [Dict.get?_set_self]
            exact Option.some_ne_none _
        | claimTask taskId now =>
            left
            simp only [Op.apply, Call.run, claimTask, hfind, Outcome.effect]
        | renewLease taskId now =>
            left
            simp only [Op.apply, Call.run, renewLease, hfind, Outcome.effect]
        | completeTask taskId result now uuid =>
            left
            simp only [Op.apply, Call.run, completeTask, hfind, Outcome.effect]
        | releaseLease taskId =>
            left
            simp only [Op.apply, Call.run, releaseLease, hfind, Outcome.effect]
        | releaseAllLeases => exact Or.inl (bumpAll_empty hempty _)
        | recoverIdentity now => exact Or.inl (bumpAll_empty hempty _)
      · -- No call removes a record.
        right
        intro hc
        refine hempty (eq_empty (fun k => ?_))
        rcases (run_edits P L c).record k with hsame | ⟨new, hnew, _⟩
        · rw [← hsame]
          change (Op.apply P L (.call c)).tasks.get? k = none
          rw [hc]
          rfl
        · change (Op.apply P L (.call c)).tasks.get? k = some new at hnew
          rw [hc] at hnew
          cases hnew

/-! ## Recovery -/

theorem bumped_disk (M : TaskLedger) (disk : Option Msg) (assign : Task → Task) (ts : List Task) :
    ({ M with disk := disk } : TaskLedger).bumped assign ts = M.bumped assign ts := by
  induction ts with
  | nil => rfl
  | cons t ts ih =>
      rw [bumped, bumped, ih]
      rfl

/-- Recovery does not look at the file. -/
theorem recoverIdentity_disk (M : TaskLedger) (disk : Option Msg) (now : ℚ) :
    (({ M with disk := disk } : TaskLedger).recoverIdentity now).ret = (M.recoverIdentity now).ret ∧
      (({ M with disk := disk } : TaskLedger).recoverIdentity now).out
        = (M.recoverIdentity now).out := by
  unfold recoverIdentity bumpAll
  rw [bumped_disk]
  cases M.bumped (fun t => { t with leaseExpires := .float (now + M.leaseDuration) })
      M.tasks.values with
  | error e => exact ⟨rfl, rfl⟩
  | ok touched => exact ⟨rfl, rfl⟩

/-- Two restarts that find the same records recover alike. -/
theorem restart_recovers (L : TaskLedger) (disk disk' : Option Msg)
    (h : (L.restart disk).tasks = (L.restart disk').tasks) (now : ℚ) :
    ((L.restart disk).recoverIdentity now).ret = ((L.restart disk').recoverIdentity now).ret ∧
      ((L.restart disk).recoverIdentity now).out = ((L.restart disk').recoverIdentity now).out := by
  have hdisk : L.restart disk = { L.restart disk' with disk := disk } := by
    have htasks : L.restart disk = { L.restart disk with tasks := (L.restart disk').tasks } := by
      rw [← h]
    rw [htasks]
    rfl
  rw [hdisk]
  exact recoverIdentity_disk (L.restart disk') disk now

section Points

variable (F : ℚ → Json.FloatText)

theorem crashSafe_of_disk {L L' : TaskLedger} {point : CrashPoint} (disk : Option Msg)
    (hdisk : disk = L.disk ∨ disk = fileContent (L'.fileText F))
    (htasks : (L.restart (L.crashDisk F L' point)).tasks = (L.restart disk).tasks) :
    L.CrashSafe F L' point := by
  refine ⟨L.restart disk, ?_, htasks, restart_recovers L _ disk htasks⟩
  rcases hdisk with rfl | rfl
  · exact Or.inl rfl
  · exact Or.inr rfl

/-- A crash is safe if the file was not yet opened or is complete, or if there
    was nothing in the old file to lose; any other crash loses every record. -/
theorem persist_atomic_iff (P : Primitives) (L : TaskLedger) (op : Op) (point : CrashPoint)
    (hpersists : (op.apply P L).disk = (op.apply P L).persist.disk) :
    L.CrashSafe F (op.apply P L) point ↔
      point = .beforeOpen ∨
      (∃ n, point = .written n ∧ ((op.apply P L).fileText F).length ≤ n) ∨
      L.load.tasks = Dict.empty := by
  cases point with
  | beforeOpen =>
      refine ⟨fun _ => Or.inl rfl, fun _ => ?_⟩
      exact crashSafe_of_disk F L.disk (Or.inl rfl) rfl
  | written n =>
      -- Everything was written, or the file ends in the middle.
      by_cases hn : ((op.apply P L).fileText F).length ≤ n
      · refine ⟨fun _ => Or.inr (Or.inl ⟨n, rfl, hn⟩), fun _ => ?_⟩
        refine crashSafe_of_disk F _ (Or.inr rfl) ?_
        rw [crashDisk, List.take_of_length_le hn]
      · -- The part that was written is no ledger, so no record is found.
        have hlost : L.crashDisk F (op.apply P L) (.written n) = none :=
          fileContent_cut F _ n (by omega)
        constructor
        · rintro ⟨M, hM, htasks, _⟩
          rw [hlost, restart_none] at htasks
          rcases hM with rfl | rfl
          · exact Or.inr (Or.inr htasks.symm)
          · rcases apply_nonempty P L op with hkept | hne
            · -- Nothing was written over: the old file had no entry either.
              have hnone : (op.apply P L).tasks = Dict.empty := by
                by_contra hne
                exact restart_complete F L _ hne htasks.symm
              have hold : L.disk = some [] := by
                rw [← hkept, hpersists, persist_fileEntries, fileEntries, hnone]
                rfl
              refine Or.inr (Or.inr ?_)
              unfold load
              rw [hold]
              rfl
            · exact absurd htasks.symm (restart_complete F L _ hne)
        · rintro (h | ⟨m, hm, hle⟩ | hold)
          · simp only [reduceCtorEq] at h
          · rw [CrashPoint.written.injEq] at hm
            omega
          · refine crashSafe_of_disk F L.disk (Or.inl rfl) ?_
            rw [hlost, restart_none]
            exact hold.symm

end Points

namespace Torn

/-- A job this node holds. -/
def job : Task :=
  { taskId := .str (lit "job"), payload := .str (lit "p"), shardId := .int 0
    status := .inProgress, leasedBy := .str (lit "node"), leaseExpires := .float 30
    result := .none, createdAt := .float 0, version := .int 2 }

def ledger : TaskLedger := (TaskLedger.put { ourKey := lit "node" } (lit "job") job).persist

def renewal : Op := .call (.renewLease (lit "job") 20)

/-- A crash right after the file was opened loses the job: recovery would find
    it in the old ledger and in the new one, and finds nothing. -/
theorem renewal_lost :
    (renewal.apply reference ledger).disk = (renewal.apply reference ledger).persist.disk ∧
    ¬ ledger.CrashSafe Json.positional (renewal.apply reference ledger) (.written 0) ∧
    (ledger.load.recoverIdentity 25).ret = .ok 1 ∧
    ((renewal.apply reference ledger).load.recoverIdentity 25).ret = .ok 1 ∧
    ((ledger.restart (ledger.crashDisk Json.positional (renewal.apply reference ledger)
      (.written 0))).recoverIdentity 25).ret = .ok 0 := by
  refine ⟨rfl, ?_, rfl, rfl, rfl⟩
  rintro ⟨M, hM, htasks, _⟩
  have hnone : M.tasks = Dict.empty := htasks.symm
  rcases hM with rfl | rfl
  · have hjob : ledger.load.tasks.get? (.str (lit "job")) = some job := rfl
    rw [hnone] at hjob
    exact (nomatch hjob)
  · refine restart_complete Json.positional ledger _ (fun hc => ?_) hnone
    have hjob : ((renewal.apply reference ledger).tasks.get? (.str (lit "job"))).isSome = true :=
      rfl
    rw [hc] at hjob
    exact Bool.false_ne_true hjob

/-- A crash after the last character is safe. -/
theorem renewal_complete : ledger.CrashSafe Json.positional (renewal.apply reference ledger)
    (.written ((renewal.apply reference ledger).fileText Json.positional).length) :=
  (persist_atomic_iff Json.positional reference ledger renewal _ rfl).mpr
    (Or.inr (Or.inl ⟨_, rfl, le_rfl⟩))

end Torn

end WhisperNet
