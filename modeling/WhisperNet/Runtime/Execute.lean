import WhisperNet.Crypto.Ciphers
import WhisperNet.Ledger.Ops

/-!
# Executing a Task

`_execute_one` in `whisper/runtime.py`: what a node does with a task whose lease
it holds. It opens the payload where the task says that it is encrypted, and
hands it to `execute`; or it completes the task with a text that says why it
could not, or gives the lease back.

The collection of threshold shares is a function of the node and comes in as
what it returned. The texts of a value and of an exception are parameters, as
the language has its own for every type.

## Main definitions

* `Worker`: What a runtime is given to open payloads with.
* `Texts`: How values and exceptions are formatted.
* `Verdict`: What is done with the task.
* `executeOne`: The decision.
* `reconstruct`: Opening a threshold payload with collected shares.

## Theorems

* `executeOne_threshold`, `executeOne_encrypted`, `executeOne_plain`: The
  payload that is executed, by mode.
-/

namespace WhisperNet

open PyVal (lt gt)

/-- What a runtime is given to open payloads with. -/
structure Worker where
  payloadCipher : Option PayloadCipher := none
  /-- whether `collect_shares_fn` is set -/
  collects : Bool := true

/-- The text an f-string makes of a value, and of an exception. -/
structure Texts where
  ofVal : PyVal → PyStr
  ofErr : PyErr → PyStr

/-- What becomes of the task: it is executed with a payload, completed with a
    text, or given back. -/
inductive Verdict
  | execute (payload : PyVal)
  | complete (result : PyStr)
  | release
  deriving DecidableEq

/-- `payload.startswith(marker)`. -/
def payloadStarts (payload : PyVal) (marker : PyStr) : Except PyErr Bool :=
  match payload with
  | .str s => .ok (startsWith s marker)
  | _ => .error .attributeError

/-- The integer an operand of `^` is. -/
def coordinate : PyVal → Except PyErr Int
  | .int n => .ok n
  | .bool b => .ok (if b then 1 else 0)
  | _ => .error .typeError

/-- The shares as the reconstruction reads them. The coordinate of a single
    share is never looked at. -/
def readShares : List (PyVal × Bytes) → Except PyErr (List Share)
  | [(x, b)] => match coordinate x with
    | .ok n => .ok [(n, b)]
    | .error _ => .ok [(0, b)]
  | shares => shares.mapM (fun s => (coordinate s.1).map (fun n => (n, s.2)))

/-- `reconstruct_and_decrypt` with collected shares, then the slice of the id
    in the log line. -/
def reconstruct (P : Primitives) (task : Task) (shares : List (PyVal × Bytes)) :
    Except PyErr PyStr :=
  match task.payload, readShares shares with
  | .str payload, .ok points =>
    match ThresholdCipher.reconstructAndDecrypt P payload points with
    | .ok opened => if task.taskId.sliceable then .ok opened else .error .typeError
    | .error e => .error e
  | .str _, .error e => .error e
  | _, _ => .error .typeError

/-- `payload_cipher.decrypt`, then the slice of the id in the log line. -/
def decryptPayload (P : Primitives) (cipher : PayloadCipher) (task : Task) : Except PyErr PyStr :=
  match task.payload with
  | .str payload =>
    match cipher.decrypt P payload with
    | .ok opened => if task.taskId.sliceable then .ok opened else .error .typeError
    | .error e => .error e
  | _ => .error .attributeError

/-- `f"shard-{task.shard_id}: [...]"`. -/
def shardText (T : Texts) (task : Task) (reason : PyStr) : PyStr :=
  lit "shard-" ++ T.ofVal task.shardId ++ lit ": [" ++ reason ++ lit "]"

/-- The log line before the execution slices the id. -/
def logged (task : Task) (payload : PyVal) : Except PyErr Verdict :=
  if task.taskId.sliceable then .ok (.execute payload) else .error .typeError

/-- The threshold branch of `_execute_one`. -/
def executeThreshold (P : Primitives) (T : Texts) (W : Worker) (task : Task)
    (collected : Except PyErr (List (PyVal × Bytes))) : Except PyErr Verdict :=
  if W.collects = false then
    .ok (.complete (shardText T task (lit "threshold encrypted — no share collection fn")))
  else match collected with
    | .error e => .error e
    | .ok shares =>
      match lt (.int shares.length) task.thresholdT with
      | .error e => .error e
      | .ok true => if task.taskId.sliceable then .ok .release else .error .typeError
      | .ok false =>
        match reconstruct P task shares with
        | .ok payload => logged task (.str payload)
        | .error e =>
          .ok (.complete (shardText T task (lit "threshold decryption failed: " ++ T.ofErr e)))

/-- The per-shard branch of `_execute_one`. -/
def executeEncrypted (P : Primitives) (T : Texts) (W : Worker) (task : Task) :
    Except PyErr Verdict :=
  match W.payloadCipher with
  | some cipher =>
    if cipher.enabled then
      match decryptPayload P cipher task with
      | .ok payload => logged task (.str payload)
      | .error _ =>
        .ok (.complete (shardText T task (lit "encrypted payload — home node offline")))
    else .ok (.complete (shardText T task (lit "encrypted payload — no key configured")))
  | none => .ok (.complete (shardText T task (lit "encrypted payload — no key configured")))

/-- The condition of the per-shard branch. -/
def isEncrypted (task : Task) : Except PyErr Bool :=
  if task.encrypted.truthy then payloadStarts task.payload payloadMarker else .ok false

/-- The condition of the threshold branch. -/
def isThreshold (task : Task) : Except PyErr Bool :=
  match gt task.thresholdT (.int 0) with
  | .error e => .error e
  | .ok false => .ok false
  | .ok true => payloadStarts task.payload thresholdMarker

/-- `_execute_one`, up to what it does with the task. -/
def executeOne (P : Primitives) (T : Texts) (W : Worker) (task : Task)
    (collected : Except PyErr (List (PyVal × Bytes))) : Except PyErr Verdict :=
  match isThreshold task with
  | .error e => .error e
  | .ok true => executeThreshold P T W task collected
  | .ok false =>
    match isEncrypted task with
    | .error e => .error e
    | .ok true => executeEncrypted P T W task
    | .ok false => logged task task.payload

/-! ## The payload that is executed -/

section Execution

variable {P : Primitives} {T : Texts} {W : Worker} {task : Task}

theorem logged_of_sliceable (hid : task.taskId.sliceable = true) (payload : PyVal) :
    logged task payload = .ok (.execute payload) :=
  if_pos hid

/-- With enough shares that open the payload, the opened payload is executed. -/
theorem executeOne_threshold {sealed payload : PyStr} {t : Nat}
    {shares : List (PyVal × Bytes)} {points : List Share} (hid : task.taskId.sliceable = true)
    (hpayload : task.payload = .str sealed) (hmark : startsWith sealed thresholdMarker = true)
    (ht : task.thresholdT = .int t) (hpos : 1 ≤ t) (hcollects : W.collects = true)
    (henough : t ≤ shares.length) (hread : readShares shares = .ok points)
    (hopen : ThresholdCipher.reconstructAndDecrypt P sealed points = .ok payload) :
    executeOne P T W task (.ok shares) = .ok (.execute (.str payload)) := by
  have hgt : gt task.thresholdT (.int 0) = .ok true := by
    rw [ht, gt, lt_int, decide_eq_true (by omega)]
  have hthreshold : isThreshold task = .ok true := by
    unfold isThreshold
    rw [hgt, hpayload]
    exact congrArg Except.ok hmark
  have hlt : lt (.int (shares.length : Int)) task.thresholdT = .ok false := by
    rw [ht, lt_int, decide_eq_false (by omega)]
  have hreconstruct : reconstruct P task shares = .ok payload := by
    simp only [reconstruct, hpayload, hread, hopen, if_pos hid]
  have hbranch : executeThreshold P T W task (.ok shares) = logged task (.str payload) := by
    unfold executeThreshold
    rw [if_neg (by rw [hcollects]; exact Bool.noConfusion)]
    simp only [hlt, hreconstruct]
  unfold executeOne
  rw [hthreshold]
  exact hbranch.trans (logged_of_sliceable hid _)

/-- With the key it is for, the opened payload is executed. -/
theorem executeOne_encrypted {sealed payload : PyStr} {cipher : PayloadCipher}
    (collected : Except PyErr (List (PyVal × Bytes))) (hid : task.taskId.sliceable = true)
    (hpayload : task.payload = .str sealed) (hmark : startsWith sealed payloadMarker = true)
    (ht : task.thresholdT = .int 0) (henc : task.encrypted = .bool true)
    (hcipher : W.payloadCipher = some cipher) (henabled : cipher.enabled = true)
    (hopen : cipher.decrypt P sealed = .ok payload) :
    executeOne P T W task collected = .ok (.execute (.str payload)) := by
  have hthreshold : isThreshold task = .ok false := by
    unfold isThreshold
    rw [ht, gt, lt_int]
    rfl
  have hencrypted : isEncrypted task = .ok true := by
    unfold isEncrypted
    rw [henc, hpayload]
    exact congrArg Except.ok hmark
  have hdecrypt : decryptPayload P cipher task = .ok payload := by
    simp only [decryptPayload, hpayload, hopen, if_pos hid]
  unfold executeOne
  rw [hthreshold, hencrypted]
  unfold executeEncrypted
  rw [hcipher]
  simp only [if_pos henabled, hdecrypt]
  exact logged_of_sliceable hid _

/-- A payload that the task does not say is encrypted is executed as it is,
    whatever it starts with. -/
theorem executeOne_plain (collected : Except PyErr (List (PyVal × Bytes)))
    (hid : task.taskId.sliceable = true) (ht : task.thresholdT = .int 0)
    (henc : task.encrypted = .bool false) :
    executeOne P T W task collected = .ok (.execute task.payload) := by
  have hthreshold : isThreshold task = .ok false := by
    unfold isThreshold
    rw [ht, gt, lt_int]
    rfl
  have hencrypted : isEncrypted task = .ok false := by
    unfold isEncrypted
    rw [henc]
    rfl
  unfold executeOne
  rw [hthreshold, hencrypted]
  exact logged_of_sliceable hid _

end Execution

end WhisperNet
