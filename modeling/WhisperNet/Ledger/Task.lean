import WhisperNet.Crypto.Primitives

/-!
# Task Records

The `Task` of `whisper/ledger.py`. A record comes from a local operation, from
a gossip message or from disk, and the last two build it from a decoded
dictionary with no check of the field types, so every field holds a value of
any type. The status is read as one of the three the program compares with, or
as some other value.

## Main definitions

* `Status`: The value of a status field.
* `Task`: A task record.
* `Task.toDict`, `Task.fromDict`: The dictionary of a record, and back.

## Theorems

* `Status.ofVal_toVal`: A status survives being written and read.
* `Task.fromDict_toDict`: A record survives being written and read.
* `Task.fromDict_fields`: Where the claim of a record was read from.
-/

namespace WhisperNet

def pendingVal : PyVal := .str (lit "pending")

def inProgressVal : PyVal := .str (lit "in_progress")

def completedVal : PyVal := .str (lit "completed")

/-- The status of a task; `other` holds any value that is none of the three. -/
inductive Status
  | pending
  | inProgress
  | completed
  | other (v : PyVal) (h : v ≠ pendingVal ∧ v ≠ inProgressVal ∧ v ≠ completedVal)
  deriving DecidableEq

namespace Status

def toVal : Status → PyVal
  | .pending => pendingVal
  | .inProgress => inProgressVal
  | .completed => completedVal
  | .other v _ => v

def ofVal (v : PyVal) : Status :=
  if hp : v = pendingVal then .pending
  else if hi : v = inProgressVal then .inProgress
  else if hc : v = completedVal then .completed
  else .other v ⟨hp, hi, hc⟩

theorem ofVal_toVal (s : Status) : ofVal s.toVal = s := by
  cases s with
  | pending => rfl
  | inProgress => rfl
  | completed => rfl
  | other v h =>
      unfold toVal ofVal
      rw [dif_neg h.1, dif_neg h.2.1, dif_neg h.2.2]

theorem toVal_ofVal (v : PyVal) : (ofVal v).toVal = v := by
  unfold ofVal
  split
  · rename_i h
    exact h.symm
  · split
    · rename_i h
      exact h.symm
    · split
      · rename_i h
        exact h.symm
      · rfl

end Status

/-- A task record. -/
structure Task where
  taskId : PyVal
  payload : PyVal
  shardId : PyVal
  status : Status
  leasedBy : PyVal
  leaseExpires : PyVal
  result : PyVal
  createdAt : PyVal
  version : PyVal := .int 0
  completedAt : PyVal := .none
  /-- AXL key to notify on completion -/
  submitterKey : PyVal := .none
  /-- True if payload is X25519 ECDH + AES-GCM encrypted -/
  encrypted : PyVal := .bool false
  /-- > 0 when payload is THRESHOLD: t-of-n Shamir encrypted -/
  thresholdT : PyVal := .int 0
  /-- wall-clock time this node claimed the task -/
  claimedAt : PyVal := .none
  /-- SHA256(key:task_id:claim_ts)[:16] -/
  commitment : PyVal := .none
  /-- SHA256(result)[:16] -/
  resultHash : PyVal := .none
  deriving DecidableEq

namespace Task

/-- `to_dict`. -/
def toDict (t : Task) : Msg :=
  [(lit "task_id", t.taskId), (lit "payload", t.payload), (lit "shard_id", t.shardId),
   (lit "status", t.status.toVal), (lit "leased_by", t.leasedBy),
   (lit "lease_expires", t.leaseExpires), (lit "result", t.result),
   (lit "created_at", t.createdAt), (lit "version", t.version),
   (lit "completed_at", t.completedAt), (lit "submitter_key", t.submitterKey),
   (lit "encrypted", t.encrypted), (lit "threshold_t", t.thresholdT),
   (lit "claimed_at", t.claimedAt), (lit "commitment", t.commitment),
   (lit "result_hash", t.resultHash)]

/-- `from_dict`: unknown keys are dropped, and a missing one of the eight
    fields without a default raises. -/
def fromDict (d : Msg) : Except PyErr Task :=
  match lookup (lit "task_id") d, lookup (lit "payload") d, lookup (lit "shard_id") d,
    lookup (lit "status") d, lookup (lit "leased_by") d, lookup (lit "lease_expires") d,
    lookup (lit "result") d, lookup (lit "created_at") d with
  | some taskId, some payload, some shardId, some status, some leasedBy, some leaseExpires,
    some result, some createdAt => .ok
      { taskId := taskId
        payload := payload
        shardId := shardId
        status := Status.ofVal status
        leasedBy := leasedBy
        leaseExpires := leaseExpires
        result := result
        createdAt := createdAt
        version := (lookup (lit "version") d).getD (.int 0)
        completedAt := (lookup (lit "completed_at") d).getD .none
        submitterKey := (lookup (lit "submitter_key") d).getD .none
        encrypted := (lookup (lit "encrypted") d).getD (.bool false)
        thresholdT := (lookup (lit "threshold_t") d).getD (.int 0)
        claimedAt := (lookup (lit "claimed_at") d).getD .none
        commitment := (lookup (lit "commitment") d).getD .none
        resultHash := (lookup (lit "result_hash") d).getD .none }
  | _, _, _, _, _, _, _, _ => .error .typeError

/-- The dictionary a record was read from has the claim the record has. -/
theorem fromDict_fields (d : Msg) (t : Task) (h : fromDict d = .ok t) :
    lookup (lit "task_id") d = some t.taskId ∧ lookup (lit "status") d = some t.status.toVal ∧
      lookup (lit "leased_by") d = some t.leasedBy ∧
      (lookup (lit "version") d).getD (.int 0) = t.version := by
  unfold fromDict at h
  split at h
  · rename_i taskId _ _ status leasedBy _ _ _ hid _ _ hstatus hholder _ _ _
    rw [Except.ok.injEq] at h
    rw [← h]
    exact ⟨hid, by rw [Status.toVal_ofVal]; exact hstatus, hholder, rfl⟩
  · exact absurd h (by simp only [reduceCtorEq, not_false_eq_true])

theorem fromDict_toDict (t : Task) : fromDict t.toDict = .ok t := by
  have hstatus : Status.ofVal t.status.toVal = t.status := Status.ofVal_toVal t.status
  have hread : fromDict t.toDict = .ok { t with status := Status.ofVal t.status.toVal } := rfl
  rw [hread, hstatus]

end Task

end WhisperNet
