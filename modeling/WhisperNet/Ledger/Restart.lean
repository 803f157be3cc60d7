import WhisperNet.Ledger.Calls

/-!
# Records Across a Restart

What a ledger finds again after a restart. `_persist` writes every record under
its key and `_load` files it under the same text, so as long as ids are strings
a ledger and its file keep every record under its own id. A call or a merge
leaves the file as it was, or writes the records it ends with.

## Main definitions

* `FiledAs`: Every record is filed under a text, and the two are related.
* `StoredAs`: So is every entry of the file.
* `TextKeys`: Every record is filed under its own id, a string.
* `TextFile`: So is every entry of the file.
* `FileKept`: An operation left the file alone, or wrote what it ended with.
* `Installs`: A received update whose record the ledger takes over.

## Theorems

* `stored_of_kept`, `load_filed`: What is related in the records is so in the
  file, and again after a restart.
* `run_file`, `update_file`: Every operation keeps the file in step.
* `update_installs`: A merge installs the record of the update or nothing.
* `run_textKeys`, `update_textKeys`: Records stay under their ids.
* `load_textKeys`, `load_persist`: And are found there after a restart.
-/

namespace WhisperNet

open TaskLedger
open PyVal (get)

/-- Every record is filed under a text that stands in the relation to it. -/
def FiledAs (Q : PyStr → Task → Prop) (L : TaskLedger) : Prop :=
  ∀ k t, L.tasks.get? k = some t → ∃ taskId, k = .str taskId ∧ Q taskId t

/-- Every entry of the file is a record under a text that is related to it. -/
def StoredAs (Q : PyStr → Task → Prop) (disk : Option Msg) : Prop :=
  ∀ entries, disk = some entries → ∀ e ∈ entries, ∃ t : Task, e.2 = .dict t.toDict ∧ Q e.1 t

/-- Every record is filed under its own id, which is a string. -/
def TextKeys (L : TaskLedger) : Prop :=
  ∀ k t, L.tasks.get? k = some t → ∃ taskId, k = .str taskId ∧ t.taskId = .str taskId

/-- Every entry of the file is a record under its own id. -/
def TextFile (disk : Option Msg) : Prop :=
  ∀ entries, disk = some entries → ∀ e ∈ entries,
    ∃ t : Task, e.2 = .dict t.toDict ∧ t.taskId = .str e.1

/-- The file is as before, or holds the records as they are now. -/
def FileKept (L L' : TaskLedger) : Prop := L'.disk = L.disk ∨ L'.disk = L'.persist.disk

/-- The update makes the ledger hold `t`: the ledger has not seen it, its
    signature passes, and the merge prefers its record. -/
def Installs (P : Primitives) (L : TaskLedger) (msg : Msg) (t : Task) : Prop :=
  (get msg (lit "msg_id")).truthy = true ∧ pyIn (get msg (lit "msg_id")) L.seenIds.items = false ∧
    verify P msg = true ∧ ∃ d key, get msg (lit "task") = .dict d ∧ Task.fromDict d = .ok t ∧
      hashKey t.taskId = .ok key ∧ accepts (L.tasks.get? key) t = .ok true

/-! ## The file -/

/-- A record under a text is written under that text. -/
theorem FiledAs.written {Q : PyStr → Task → Prop} {L : TaskLedger} (h : FiledAs Q L) (k : Key)
    (t : Task) (ht : L.tasks.get? k = some t) : Q (jsonKey k) t := by
  rcases h k t ht with ⟨taskId, hk, hQ⟩
  rw [hk]
  exact hQ

theorem stored_persist {Q : PyStr → Task → Prop} {L : TaskLedger}
    (h : ∀ k t, L.tasks.get? k = some t → Q (jsonKey k) t) : StoredAs Q L.persist.disk := by
  intro entries hdisk e he
  unfold persist at hdisk
  simp only [Option.some.injEq] at hdisk
  rw [← hdisk] at he
  rcases List.mem_map.mp he with ⟨⟨k, t⟩, hmem, heq⟩
  refine ⟨t, by rw [← heq], ?_⟩
  rw [← heq]
  exact h k t ((L.tasks.mem_entries_iff k t).mp hmem)

theorem stored_of_kept {Q : PyStr → Task → Prop} {L L' : TaskLedger} (h : FileKept L L')
    (hfile : StoredAs Q L.disk) (hrecords : ∀ k t, L'.tasks.get? k = some t → Q (jsonKey k) t) :
    StoredAs Q L'.disk := by
  rcases h with h | h
  · rw [h]
    exact hfile
  · rw [h]
    exact stored_persist hrecords

theorem textFile_of_kept {L L' : TaskLedger} (h : FileKept L L') (hfile : TextFile L.disk)
    (hkeys : TextKeys L') : TextFile L'.disk :=
  stored_of_kept (Q := fun taskId t => t.taskId = .str taskId) h hfile
    (FiledAs.written (Q := fun taskId t => t.taskId = .str taskId) hkeys)

theorem bumpAll_file (L : TaskLedger) (assign : Task → Task) :
    FileKept L (L.bumpAll assign).ledger := by
  unfold bumpAll
  split
  · exact Or.inl rfl
  · simp only []
    split
    · exact Or.inl rfl
    · exact Or.inr rfl

theorem claimFree_file (L : TaskLedger) (taskId : PyStr) (t : Task) (now : ℚ) :
    FileKept L (L.claimFree taskId t now).ledger := by
  unfold claimFree
  simp only []
  split
  · exact Or.inl rfl
  · split
    · exact Or.inl rfl
    · exact Or.inr rfl

/-- Every call leaves the file alone or writes the records it ends with. -/
theorem run_file (P : Primitives) (L : TaskLedger) (c : Call) : FileKept L (c.run P L).1 := by
  cases c with
  | submitTask env taskId payload shardId submitterKey => exact Or.inr rfl
  | claimTask taskId now =>
      simp only [Call.run, Outcome.effect]
      unfold claimTask
      split
      · exact Or.inl rfl
      · split
        · exact Or.inl rfl
        · split
          · exact Or.inl rfl
          · split
            · exact Or.inl rfl
            · simp only []
              -- Counting the rescue does not touch the file.
              split
              · exact claimFree_file { L with tasksRescued := L.tasksRescued + 1 } taskId _ now
              · exact claimFree_file L taskId _ now
  | renewLease taskId now =>
      simp only [Call.run, Outcome.effect]
      unfold renewLease
      split
      · exact Or.inl rfl
      · split
        · exact Or.inl rfl
        · simp only []
          split
          · exact Or.inl rfl
          · exact Or.inr rfl
  | completeTask taskId result now uuid =>
      simp only [Call.run, Outcome.effect]
      unfold completeTask
      split
      · exact Or.inl rfl
      · split
        · exact Or.inl rfl
        · simp only []
          split
          · exact Or.inl rfl
          · split
            · exact Or.inl rfl
            · exact Or.inr rfl
  | releaseLease taskId =>
      simp only [Call.run, Outcome.effect]
      unfold releaseLease
      split
      · exact Or.inl rfl
      · split
        · exact Or.inl rfl
        · simp only []
          split
          · exact Or.inl rfl
          · exact Or.inr rfl
  | releaseAllLeases => exact bumpAll_file L _
  | recoverIdentity now => exact bumpAll_file L _

theorem mergeTask_file (L : TaskLedger) (msg : Msg) (key : Key) (t : Task) :
    FileKept L (L.mergeTask msg key t).ledger := by
  unfold mergeTask
  split
  · exact Or.inl rfl
  · exact Or.inl rfl
  · simp only []
    split
    · split
      · exact Or.inr rfl
      · exact Or.inr rfl
    · exact Or.inl rfl

theorem update_file (P : Primitives) (L : TaskLedger) (msg : Msg) :
    FileKept L (L.handleLedgerUpdate P msg).ledger := by
  unfold handleLedgerUpdate
  split
  · exact Or.inl rfl
  · simp only []
    unfold handleFresh
    split
    · exact Or.inl rfl
    · split
      · exact Or.inl rfl
      · split
        · split
          · exact Or.inl rfl
          · split
            · exact Or.inl rfl
            · exact mergeTask_file { L with seenIds := L.seenIds.append _ } msg _ _
        · exact Or.inl rfl

/-! ## The records -/

theorem run_textKeys (P : Primitives) (L : TaskLedger) (c : Call) (h : TextKeys L) :
    TextKeys (c.run P L).1 := by
  have hmatch : ∀ k t, L.tasks.get? k = some t → hashKey t.taskId = .ok k := by
    intro k t ht
    rcases h k t ht with ⟨taskId, hk, hid⟩
    rw [hk, hid]
    rfl
  intro k t ht
  rcases (run_edits P L c).record k with hsame | ⟨new, hnew, hedit, _⟩
  · exact h k t (by rw [← hsame, ht])
  · rw [ht, Option.some.injEq] at hnew
    rw [hnew]
    have hid := edit_taskId hedit (fun old hold => hmatch k old hold)
    -- The key is one that had a record, or the one of the submission.
    obtain ⟨taskId, hk⟩ : ∃ taskId, k = .str taskId := by
      rcases edit_old hedit with ⟨old, hold⟩ | ⟨_, taskId, _, _, _, _, hk⟩
      · rcases h k old hold with ⟨taskId, hk, _⟩
        exact ⟨taskId, hk⟩
      · exact ⟨taskId, hk⟩
    rw [hk] at hid
    exact ⟨taskId, hk, (hashKey_eq_str _ _).mp hid⟩

/-- The merge leaves the records alone or installs the one it carries. -/
theorem update_installs (P : Primitives) (L : TaskLedger) (msg : Msg) :
    (L.handleLedgerUpdate P msg).ledger.tasks = L.tasks ∨
      ∃ t key, Installs P L msg t ∧ hashKey t.taskId = .ok key ∧
        (L.handleLedgerUpdate P msg).ledger.tasks = L.tasks.set key t := by
  by_cases hseen : (get msg (lit "msg_id")).truthy = false ∨
      pyIn (get msg (lit "msg_id")) L.seenIds.items = true
  · left
    unfold handleLedgerUpdate
    rw [if_pos hseen]
  · simp only [not_or, Bool.not_eq_false, Bool.not_eq_true] at hseen
    rcases L.handleLedgerUpdate_cases P msg with ⟨hsame, _⟩ |
      ⟨d, t, key, hd, ht, hkey, hverify, haccepts, hset, _⟩
    · exact Or.inl hsame
    · exact Or.inr ⟨t, key, ⟨hseen.1, hseen.2, hverify, d, key, hd, ht, hkey, haccepts⟩, hkey, hset⟩

/-- A merge keeps every record under its id if the ids it brings are strings. -/
theorem update_textKeys (P : Primitives) (L : TaskLedger) (msg : Msg) (h : TextKeys L)
    (hnew : ∀ t, Installs P L msg t → ∃ taskId, t.taskId = .str taskId) :
    TextKeys (L.handleLedgerUpdate P msg).ledger := by
  intro k t ht
  rcases update_installs P L msg with hsame | ⟨new, key, hinst, hkey, hset⟩
  · exact h k t (by rw [← hsame, ht])
  · rcases hnew new hinst with ⟨taskId, hid⟩
    rw [hid] at hkey
    have hkeyStr : Key.str taskId = key := Except.ok.inj hkey
    rw [hset, Dict.get?_set] at ht
    by_cases hk : k = key
    · rw [if_pos hk, Option.some.injEq] at ht
      exact ⟨taskId, by rw [hk, hkeyStr], by rw [← ht, hid]⟩
    · rw [if_neg hk] at ht
      exact h k t ht

/-- Filing a record that is related to its text. -/
theorem filed_set {Q : PyStr → Task → Prop} {L L' : TaskLedger} {taskId : PyStr} {t : Task}
    (h : FiledAs Q L) (hset : L'.tasks = L.tasks.set (.str taskId) t) (ht : Q taskId t) :
    FiledAs Q L' := by
  intro k u hu
  rw [hset, Dict.get?_set] at hu
  by_cases hk : k = .str taskId
  · rw [if_pos hk, Option.some.injEq] at hu
    exact ⟨taskId, hk, hu ▸ ht⟩
  · rw [if_neg hk] at hu
    exact h k u hu

/-- What is filed after a restart is what was related in the file. -/
theorem loadTasks_filed {Q : PyStr → Task → Prop} (entries : Msg) (acc : Dict Key Task)
    (hfile : ∀ e ∈ entries, ∃ t : Task, e.2 = .dict t.toDict ∧ Q e.1 t)
    (hacc : ∀ k t, acc.get? k = some t → ∃ taskId, k = .str taskId ∧ Q taskId t)
    (k : Key) (t : Task) (ht : (loadTasks entries acc).get? k = some t) :
    ∃ taskId, k = .str taskId ∧ Q taskId t := by
  induction entries generalizing acc with
  | nil => exact hacc k t ht
  | cons e entries ih =>
      rcases e with ⟨key, v⟩
      rcases hfile (key, v) (List.mem_cons_self ..) with ⟨new, hv, hQ⟩
      simp only at hv hQ
      rw [hv, loadTasks, Task.fromDict_toDict] at ht
      refine ih (acc.set (.str key) new) (fun e he => hfile e (List.mem_cons_of_mem _ he)) ?_ ht
      intro k' t' ht'
      rw [Dict.get?_set] at ht'
      by_cases hk : k' = .str key
      · rw [if_pos hk, Option.some.injEq] at ht'
        exact ⟨key, hk, ht' ▸ hQ⟩
      · rw [if_neg hk] at ht'
        exact hacc k' t' ht'

theorem load_filed {Q : PyStr → Task → Prop} {L : TaskLedger} (hfile : StoredAs Q L.disk) :
    FiledAs Q L.load := by
  intro k t ht
  refine loadTasks_filed _ Dict.empty ?_ (fun k t hc => nomatch hc) k t ht
  intro e he
  cases hdisk : L.disk with
  | none =>
      rw [hdisk] at he
      exact (List.not_mem_nil he).elim
  | some entries =>
      rw [hdisk] at he
      exact hfile entries hdisk e he

theorem load_textKeys {L : TaskLedger} (hfile : TextFile L.disk) : TextKeys L.load :=
  load_filed (Q := fun taskId t => t.taskId = .str taskId) hfile

/-- Records under texts are read back in the order in which they were written. -/
theorem loadTasks_written (records : List (Key × Task)) (acc : Dict Key Task)
    (htext : ∀ e ∈ records, ∃ taskId, e.1 = .str taskId)
    (hnodup : ((acc.entries ++ records).map Prod.fst).Nodup) :
    (loadTasks (records.map (fun e => (jsonKey e.1, .dict e.2.toDict))) acc).entries
      = acc.entries ++ records := by
  induction records generalizing acc with
  | nil => exact (List.append_nil _).symm
  | cons e records ih =>
      rcases e with ⟨k, t⟩
      obtain ⟨taskId, rfl⟩ : ∃ taskId, k = .str taskId := htext (k, t) (List.mem_cons_self ..)
      have hnew : Key.str taskId ∉ acc.entries.map Prod.fst := by
        intro hc
        rw [List.map_append, List.nodup_append] at hnodup
        exact hnodup.2.2 _ hc _ (List.mem_cons_self ..) rfl
      have hset := acc.entries_set_new (.str taskId) t hnew
      have hall : (acc.set (.str taskId) t).entries ++ records
          = acc.entries ++ (.str taskId, t) :: records := by
        rw [hset, List.append_assoc, List.singleton_append]
      rw [← hall] at hnodup ⊢
      rw [List.map_cons, loadTasks, Task.fromDict_toDict]
      exact ih _ (fun e he => htext e (List.mem_cons_of_mem _ he)) hnodup

/-- A restart finds the records that were persisted last. -/
theorem load_persist {L : TaskLedger} (h : TextKeys L) : L.persist.load.tasks = L.tasks := by
  refine Dict.ext (loadTasks_written L.tasks.entries Dict.empty (fun e he => ?_) L.tasks.nodup)
  rcases h e.1 e.2 ((L.tasks.mem_entries_iff e.1 e.2).mp he) with ⟨taskId, hk, _⟩
  exact ⟨taskId, hk⟩

end WhisperNet
