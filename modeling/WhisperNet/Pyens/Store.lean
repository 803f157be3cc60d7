import WhisperNet.Pyens.ChildLabels
import WhisperNet.Python.JsonRoundTrip
import WhisperNet.Runtime.Shares

/-!
# The Minting Commands and Their File

The command line mints names and keeps a file of what it did: the names below
the root, the names below other names and the log of the transactions. A
command loads the file, checks that the signer owns the parent, sends its
transactions and writes the file once at the end. A command that stops with an
error before that leaves the file as it was, whatever it has sent by then.

The registry, the node that takes the transactions and the check of an address
answer as they like. A file may hold anything: one that is not JSON, or not of
this root, is taken for an empty one, and a value of the wrong type raises
where it is used. Printing is taken to succeed.

## Main definitions

* `defaultState`, `loadState`, `saveState`: The file.
* `Chain`: What a command is answered.
* `Stop`: Why a command stops.
* `mintSub`, `recordSub`: Minting a name below the root.
* `planNested`, `mintChild`, `addChild`: Minting names below another.
* `Call`, `Call.file`: A command, and the file after it.

## Theorems

* `loadState_saveState`: What was written is loaded.
* `Stop.bind_eq_ok`: A sequence of two steps that succeeds.
-/

namespace WhisperNet

namespace Pyens

open PyVal (get)
open Unicode (lower)

/-- `ROOT_NAME`. -/
def rootName : PyStr := lit "axl.eth"

/-! ## The file -/

/-- `default_state`. -/
def defaultState : Msg :=
  [(lit "name", .str rootName), (lit "lastOwner", .none), (lit "lastResolver", .none),
   (lit "subnames", .list []), (lit "nestedSubnames", .dict []), (lit "prefillParent", .str []),
   (lit "txLog", .list [])]

/-- `load_state`, given the text of the file if there is one. -/
def loadState : Option PyStr → Except PyErr Msg
  | none => .ok defaultState
  | some text =>
    match Json.loads text with
    | none => .ok defaultState
    | some (.dict data) =>
      if pyEq (get data (lit "name")) (.str rootName) then
        .ok (defaultState.map (fun e => (e.1, PyVal.getD data e.1 e.2)))
      else .ok defaultState
    -- Only a dictionary has a method `get`.
    | some _ => .error .attributeError

/-- `save_state`: the text that is written. -/
def saveState (F : ℚ → Json.FloatText) (state : Msg) : PyStr :=
  Json.dumps F (.dict (assign (lit "name") (.str rootName) state))

/-! ## Answers -/

/-- What a command is answered. The transaction of a name is sent with its data. -/
structure Chain where
  /-- `acct.address` -/
  signer : PyStr
  owner : Bytes → Except PyErr PyStr
  resolver : Bytes → Except PyErr PyStr
  isAddress : PyStr → Bool
  toChecksumAddress : PyStr → Except PyErr PyStr
  /-- from the gas estimate on: the hash -/
  send : PyStr → Bytes → Except PyErr PyStr
  /-- the status of the receipt, if it has one -/
  receipt : PyStr → Except PyErr (Option Int)

/-- Why a command stops, or why a label of a batch fails. -/
inductive Stop
  | exit (message : PyStr)
  | raised (e : PyErr)
  | reverted
  deriving DecidableEq

/-- An exception passes through. -/
def raising {α : Type} : Except PyErr α → Except Stop α
  | .ok a => .ok a
  | .error e => .error (.raised e)

def notRootOwner (owner : PyStr) : PyStr :=
  lit "Private key must be the on-chain owner of axl.eth to mint direct subnames (owner is " ++
    owner ++ lit ")."

def notParentOwner (owner : PyStr) : PyStr :=
  lit "Private key must be the on-chain owner of the parent name. Parent owner: " ++ owner

def noLabels : PyStr :=
  lit "Provide child labels (one per line or comma-separated). " ++
    lit "Paste goat or goat.hehe.axl.eth style lines."

section Commands

variable (P : Packages) (C : Chain)

/-- `read_owner`. -/
def readOwner (fqdn : PyStr) : Except PyErr PyStr := do
  let node ← P.namehashBytes fqdn
  C.owner node

/-- `read_root_owner_resolver`. -/
def readRootOwnerResolver : Except PyErr (PyStr × PyStr) := do
  let node ← P.namehashBytes rootName
  let owner ← C.owner node
  let resolver ← C.resolver node
  pure (owner, resolver)

/-- `_norm_owner`. -/
def normOwner (addr : Option PyStr) (fallback : PyStr) : Except Stop PyStr :=
  let a := Unicode.strip (addr.getD [])
  if a = [] then raising (C.toChecksumAddress fallback)
  else if C.isAddress a then raising (C.toChecksumAddress a)
  else .error (.exit (lit "Bad owner address: " ++ a))

/-- `send_registry_create_subname`, with the default resolver. -/
def sendRegistryCreateSubname (fqdn owner : PyStr) : Except PyErr PyStr := do
  let data ← P.encodeSetSubnodeRecordCalldata fqdn owner none
  C.send fqdn data

/-- The transaction of a name, and its receipt if the command waits for it. -/
def sendAndWait (fqdn owner : PyStr) (wait : Bool) (onRevert : Stop) : Except Stop PyStr := do
  let txh ← raising (sendRegistryCreateSubname P C fqdn owner)
  if wait then
    let status ← raising (C.receipt txh)
    if status.getD 1 = 0 then .error onRevert else pure txh
  else pure txh

/-! ## A name below the root -/

/-- `cmd_create_sub` up to the log: the name, and the hash of its transaction. -/
def mintSub (label : PyStr) (owner : Option PyStr) (wait : Bool) :
    Except Stop (PyStr × PyStr) := do
  let (rootOwner, _) ← raising (readRootOwnerResolver P C)
  if lower rootOwner ≠ lower C.signer then
    .error (.exit (notRootOwner rootOwner))
  else
    let labelClean := clean label
    if labelClean = [] ∨ dot ∈ labelClean then
      .error (.exit (lit "Enter a single label (e.g. hehe)."))
    else
      let full := labelClean ++ dot :: rootName
      let ownerCs ← normOwner C owner C.signer
      let txh ← sendAndWait P C full ownerCs wait (.exit (lit "Transaction reverted."))
      pure (full, txh)

/-! ## Names below another name -/

/-- `cmd_create_nested` up to the loop: the parent, the labels and the owner. -/
def planNested (parent labelsRaw : PyStr) (owner : Option PyStr) :
    Except Stop (PyStr × List PyStr × PyStr) := do
  let parentName := clean parent
  if parentName = [] then
    .error (.exit (lit "Set parent under axl.eth (e.g. hehe.axl.eth)."))
  else if parentName ≠ rootName ∧ ¬ (dot :: rootName) <:+ parentName then
    .error (.exit (lit "Parent must be axl.eth or a name ending .axl.eth"))
  else
    let labels := parseChildLabels labelsRaw parentName
    if labels = [] then
      .error (.exit noLabels)
    else
      let parentOwner ← raising (readOwner P C parentName)
      if lower parentOwner ≠ lower C.signer then
        .error (.exit (notParentOwner parentOwner))
      else
        let nestedOwner ← normOwner C owner C.signer
        pure (parentName, labels, nestedOwner)

/-- The transaction of one label. -/
def mintChild (parentName nestedOwner : PyStr) (wait : Bool) (label : PyStr) :
    Except Stop PyStr :=
  sendAndWait P C (label ++ dot :: parentName) nestedOwner wait .reverted

end Commands

/-! ## The log -/

/-- `x or y`. -/
def orElse (x y : PyVal) : PyVal := if x.truthy then x else y

/-- An entry of the log. -/
def logEntry (kind : PyStr) (name hash : PyStr) : PyVal :=
  .dict [(lit "kind", .str kind), (lit "name", .str name), (lit "hash", .str hash)]

/-- `cmd_create_sub` from the log on: the state that is saved. -/
def recordSub (st : Msg) (full txh : PyStr) : Except PyErr Msg := do
  let txLog ← pyList (orElse (get st (lit "txLog")) (.list []))
  let subs ← pyList (orElse (get st (lit "subnames")) (.list []))
  let subs := if pyIn (.str full) subs then subs else .str full :: subs
  pure (assign (lit "txLog") (.list (logEntry (lit "sub") full txh :: txLog))
    (assign (lit "prefillParent") (.str full) (assign (lit "subnames") (.list subs) st)))

/-- The locals of the loop in `cmd_create_nested`. -/
structure Batch where
  successes : List (PyStr × PyStr)
  failures : List (PyStr × Stop)
  txLog : List PyVal
  nestedMap : Msg

/-- `nested_map[parent_name]` with one more name, which goes to the front. -/
def mergeName (parentName full : PyStr) (nestedMap : Msg) : Except PyErr Msg :=
  match PyVal.getD nestedMap parentName (.list []) with
  | .list lst =>
    (fromKeys (.str full :: lst) []).map (fun merged => assign parentName (.list merged) nestedMap)
  | _ => .error .typeError

/-- What the loop does with a label, given what came of its transaction. The name is
    logged before the names of the parent are merged. -/
def addChild (parentName : PyStr) (b : Batch) (label : PyStr) : Except Stop PyStr → Batch
  | .error e => { b with failures := b.failures ++ [(label, e)] }
  | .ok txh =>
    let full := label ++ dot :: parentName
    let b := { b with
      successes := b.successes ++ [(full, txh)]
      txLog := logEntry (lit "nested") full txh :: b.txLog }
    match mergeName parentName full b.nestedMap with
    | .ok nestedMap => { b with nestedMap := nestedMap }
    | .error e => { b with failures := b.failures ++ [(label, .raised e)] }

/-- A value that `dict` takes for a key and what belongs to it. -/
def pyPair : PyVal → Except PyErr (PyVal × PyVal)
  | .list [k, v] => .ok (k, v)
  | .str [a, b] => .ok (.str [a], .str [b])
  | .dict [(a, _), (b, _)] => .ok (.str a, .str b)
  | .list _ | .str _ | .dict _ => .error .valueError
  | .none | .bool _ | .int _ | .float _ => .error .typeError

/-- `dict(v)`. The keys are texts here: a pair with a number in front is refused, which
    Python would take. -/
def pyDict : PyVal → Except PyErr Msg
  | .dict kvs => .ok kvs
  | .list xs => xs.foldlM (fun d x => do
    match ← pyPair x with
    | (.str k, v) => pure (assign k v d)
    | _ => .error .typeError) []
  | .str [] => .ok []
  | .str _ => .error .valueError
  | .none | .bool _ | .int _ | .float _ => .error .typeError

/-- `cmd_create_nested` from the loop on: the batch, and the state if it is saved. -/
def recordNested (st : Msg) (parentName : PyStr) (labels : List PyStr)
    (mint : PyStr → Except Stop PyStr) : Except PyErr (Batch × Option Msg) := do
  let txLog ← pyList (orElse (get st (lit "txLog")) (.list []))
  let nestedMap ← pyDict (orElse (get st (lit "nestedSubnames")) (.dict []))
  let b := labels.foldl (fun b label => addChild parentName b label (mint label))
    ⟨[], [], txLog, nestedMap⟩
  pure (b, if b.successes = [] then none else
    some (assign (lit "txLog") (.list b.txLog)
      (assign (lit "nestedSubnames") (.dict b.nestedMap) st)))

/-! ## Commands -/

/-- The commands that mint; the labels of a batch may come from a file. -/
inductive Cmd
  | createSub (label : PyStr) (owner : Option PyStr) (wait : Bool)
  | createNested (parent labelsRaw : PyStr) (owner : Option PyStr) (wait : Bool)

/-- A command and what it is answered. -/
structure Call where
  chain : Chain
  cmd : Cmd

/-- What a command saves, if it comes to that. What it prints is left out: a `print` that
    raises, on a terminal that cannot show a name, would end the command here, unsaved. -/
def Call.saved (P : Packages) (c : Call) (file : Option PyStr) : Except Stop (Option Msg) :=
  match c.cmd with
  | .createSub label owner wait => do
    let st ← raising (loadState file)
    let (full, txh) ← mintSub P c.chain label owner wait
    let st ← raising (recordSub st full txh)
    pure (some st)
  | .createNested parent labelsRaw owner wait => do
    let (parentName, labels, nestedOwner) ← planNested P c.chain parent labelsRaw owner
    let st ← raising (loadState file)
    let (_, st) ← raising (recordNested st parentName labels
      (mintChild P c.chain parentName nestedOwner wait))
    pure st

/-- The file after a command. -/
def Call.file (F : ℚ → Json.FloatText) (P : Packages) (file : Option PyStr) (c : Call) :
    Option PyStr :=
  match c.saved P file with
  | .ok (some st) => some (saveState F st)
  | .ok none | .error _ => file

/-! ## Small facts -/

theorem raising_eq_ok {α : Type} {x : Except PyErr α} {a : α} :
    raising x = .ok a ↔ x = .ok a := by
  cases x with
  | ok b => simp only [raising, Except.ok.injEq]
  | error e => simp only [raising, reduceCtorEq]

/-- A sequence of two steps that succeeds. -/
theorem Stop.bind_eq_ok {α β : Type} {x : Except Stop α} {f : α → Except Stop β} {b : β} :
    x.bind f = .ok b ↔ ∃ a, x = .ok a ∧ f a = .ok b := by
  cases x with
  | error e => simp only [Except.bind, reduceCtorEq, false_and, exists_false]
  | ok a => simp only [Except.bind, Except.ok.injEq, exists_eq_left']

end Pyens

end WhisperNet
