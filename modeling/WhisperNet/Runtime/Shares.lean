import WhisperNet.Crypto.Opening
import WhisperNet.Lib.Machine
import WhisperNet.Membership.Handlers
import WhisperNet.Runtime.Execute

/-!
# Collecting Threshold Shares

The part of `whisper/node.py` that deals with encryption keys and shares: which
keys a submission encrypts to, how a holder of a threshold task asks its peers
for their shares, how a peer answers, and how the answers are put together.

An execution opens a slot for its task, asks, and waits; answers arrive on the
receive thread at any time and go to the slot of their task, if there is one;
when the wait is over the execution takes the slot away with what is in it. A
desk is the slots of one node, and a run of it is any sequence of these steps,
so the wait may end early or late and answers of an earlier round may arrive in
a later one.

## Main definitions

* `getThresholdParams`, `getEncPubkeyForShard`: The keys to encrypt to.
* `beginCollection`: A collection up to the wait.
* `handleShareRequest`: The answer of a peer.
* `handleShareResponse`: An answer that arrives.
* `Desk`, `Desk.step`: The slots of a node.
* `Answer`: A message a node with the same sealed payload made.
* `Genuine`: Shares of the split, with different coordinates.
* `filed`: A share as it stands in a slot.

## Theorems

* `handleShareRequest_some_iff`: When a peer answers, and what.
* `threshold_le`: The threshold of a submission is between one and the number of
  keys.
* `step_genuine`: A slot of the task keeps holding genuine shares.
* `returned_genuine`: So do the shares any run returns for it.
-/

namespace WhisperNet

open PyVal (get lt)

/-! ## Keys -/

/-- `list(dict.fromkeys(vs))`. -/
def fromKeys : List PyVal → List Key → Except PyErr (List PyVal)
  | [], _ => .ok []
  | v :: vs, seen =>
    match hashKey v with
    | .error e => .error e
    | .ok k =>
      if k ∈ seen then fromKeys vs seen else (fromKeys vs (k :: seen)).map (fun out => v :: out)

/-- `_get_threshold_params`. -/
def getThresholdParams (P : Primitives) (cipher : PayloadCipher) (M : MembershipLayer) :
    Except PyErr (Option (Nat × List PyVal)) :=
  match cipher.pubkeyHex P with
  | none => .ok none
  | some own =>
    match fromKeys (.str own :: (M.peers.values.map PeerInfo.encPubkey).filter PyVal.truthy) [] with
    | .error e => .error e
    | .ok all => .ok (if all.length < 3 then none else some ((all.length + 1) / 2, all))

/-- `_get_enc_pubkey_for_shard`. -/
def getEncPubkeyForShard (P : Primitives) (cipher : PayloadCipher) (ownShard : Int)
    (M : MembershipLayer) (shardId : PyVal) : PyVal :=
  if pyEq shardId (.int ownShard) then
    match cipher.pubkeyHex P with
    | none => .none
    | some own => .str own
  else
    let peerKey := M.getPeerForShard shardId
    match hashKey peerKey with
    | .ok k => if peerKey.truthy then M.getEncPubkey k else .none
    | .error _ => .none

/-- The threshold of a submission: at least one, and no more than the keys. -/
theorem threshold_le {P : Primitives} {cipher : PayloadCipher} {M : MembershipLayer} {t : Nat}
    {keys : List PyVal} (h : getThresholdParams P cipher M = .ok (some (t, keys))) :
    1 ≤ t ∧ t ≤ keys.length := by
  unfold getThresholdParams at h
  cases hown : cipher.pubkeyHex P with
  | none =>
      rw [hown] at h
      exact (nomatch h)
  | some own =>
      simp only [hown] at h
      split at h
      · simp only [reduceCtorEq] at h
      · rename_i all _
        by_cases hfew : all.length < 3
        · rw [if_pos hfew] at h
          exact (nomatch h)
        · rw [if_neg hfew, Except.ok.injEq, Option.some.injEq, Prod.mk.injEq] at h
          rw [← h.1, ← h.2]
          omega

/-! ## Collections -/

/-- `_share_collections[task_id]`; `event` says that enough shares are there. -/
structure Collection where
  needed : PyVal
  shares : List (PyVal × Bytes)
  event : Bool := false

/-- How a collection goes on: it returns at once, or it waits on a slot. -/
inductive Begun
  | done (shares : List (PyVal × Bytes))
  | waiting (key : Key) (needed : PyVal) (own : PyVal × Bytes)

/-- The shares a collection starts from. -/
def Begun.shares : Begun → List (PyVal × Bytes)
  | .done shares => shares
  | .waiting _ _ own => [own]

/-- `task.threshold_t or 1`. -/
def sharesNeeded (task : Task) : PyVal :=
  if task.thresholdT.truthy then task.thresholdT else .int 1

/-- `_collect_threshold_shares` up to the broadcast of the request. -/
def beginCollection (P : Primitives) (cipher : PayloadCipher) (task : Task) :
    Except PyErr Begun :=
  match task.payload with
  | .str payload =>
    if startsWith payload thresholdMarker = false then .ok (.done [])
    else match ThresholdCipher.decryptOwnShare P cipher payload with
      | .error e => .error e
      | .ok none => .ok (.done [])
      | .ok (some own) =>
        match lt (.int 1) (sharesNeeded task), hashKey task.taskId with
        | .error e, _ => .error e
        | .ok false, _ => .ok (.done [own])
        | .ok true, .ok k => .ok (.waiting k (sharesNeeded task) own)
        | .ok true, .error e => .error e
  | _ => .error .attributeError

/-- The slot of a collection is the one of its task. -/
theorem beginCollection_key {P : Primitives} {cipher : PayloadCipher} {task : Task} {k : Key}
    {needed : PyVal} {own : PyVal × Bytes}
    (h : beginCollection P cipher task = .ok (.waiting k needed own)) :
    hashKey task.taskId = .ok k := by
  unfold beginCollection at h
  split at h
  · split at h
    · exact (nomatch h)
    · split at h
      · simp only [reduceCtorEq] at h
      · exact (nomatch h)
      · split at h
        · simp only [reduceCtorEq] at h
        · exact (nomatch h)
        · rename_i k' hk
          rw [Except.ok.injEq, Begun.waiting.injEq] at h
          rw [hk, h.1]
        · simp only [reduceCtorEq] at h
  · simp only [reduceCtorEq] at h

/-- The request that goes to every peer that is not dead. -/
def shareRequest (ourKey uuid : PyStr) (task : Task) : Msg :=
  [(lit "type", .str (lit "share_request")), (lit "msg_id", .str uuid),
   (lit "from", .str ourKey), (lit "task_id", task.taskId)]

/-- The answer with a share. -/
def shareResponse (P : Primitives) (ourKey uuid : PyStr) (taskId : PyVal)
    (share : PyVal × Bytes) : Msg :=
  [(lit "type", .str (lit "share_response")), (lit "msg_id", .str uuid),
   (lit "from", .str ourKey), (lit "task_id", taskId), (lit "x", share.1),
   (lit "share", .str (P.b64encode share.2))]

/-- `_handle_share_request`, with the membership layer and the records of the node. -/
def handleShareRequest (P : Primitives) (cipher : PayloadCipher) (M : MembershipLayer)
    (uuid : PyStr) (tasks : List Task) (msg : Msg) : Except PyErr (Option Send) :=
  let taskId := get msg (lit "task_id")
  let requester := get msg (lit "from")
  if taskId.truthy = false ∨ requester.truthy = false then .ok none
  else match tasks.find? (fun t => pyEq t.taskId taskId) with
    | none => .ok none
    | some task =>
      match task.payload with
      | .str payload =>
        if startsWith payload thresholdMarker = false then .ok none
        else match ThresholdCipher.decryptOwnShare P cipher payload with
          | .error e => .error e
          | .ok none => .ok none
          | .ok (some share) =>
            match hashKey requester with
            -- A requester that cannot be sent to is logged.
            | .ok dest => .ok
              (MembershipLayer.send dest (shareResponse P M.ourKey uuid taskId share) M).out.head?
            | .error _ => .ok none
      | _ => .error .attributeError

/-- What is sent to a key goes out unless the key is a number. -/
theorem send_head?_iff (dest : Key) (msg : Msg) (M : MembershipLayer) (o : Send) :
    (MembershipLayer.send dest msg M).out.head? = some o ↔
      o.dest = dest ∧ o.msg = msg ∧ ∀ q, dest ≠ .num q := by
  have hsend : (∀ q, dest ≠ .num q) → (MembershipLayer.send dest msg M).out = [⟨dest, msg⟩] := by
    intro htext
    cases dest with
    | num q => exact (htext q rfl).elim
    | none => rfl
    | str x => rfl
  constructor
  · intro h
    have htext : ∀ q, dest ≠ .num q := by
      intro q hq
      rw [hq] at h
      cases h
    rw [hsend htext] at h
    rw [← Option.some.inj h]
    exact ⟨rfl, rfl, htext⟩
  · rintro ⟨hdest, hmsg, htext⟩
    rw [hsend htext, ← hdest, ← hmsg]
    rfl

/-- A request is answered if it names a record of which the node opens a share,
    and a party that can be sent to. -/
theorem handleShareRequest_some_iff (P : Primitives) (cipher : PayloadCipher)
    (M : MembershipLayer) (uuid : PyStr) (tasks : List Task) (msg : Msg) (o : Send) :
    handleShareRequest P cipher M uuid tasks msg = .ok (some o) ↔
      (get msg (lit "task_id")).truthy = true ∧ (get msg (lit "from")).truthy = true ∧
        ∃ task payload share,
          tasks.find? (fun t => pyEq t.taskId (get msg (lit "task_id"))) = some task ∧
          task.payload = .str payload ∧ startsWith payload thresholdMarker = true ∧
          ThresholdCipher.decryptOwnShare P cipher payload = .ok (some share) ∧
          hashKey (get msg (lit "from")) = .ok o.dest ∧ (∀ q, o.dest ≠ .num q) ∧
          o.msg = shareResponse P M.ourKey uuid (get msg (lit "task_id")) share := by
  constructor
  · intro h
    unfold handleShareRequest at h
    dsimp only at h
    split at h
    · exact (nomatch h)
    · rename_i hgiven
      simp only [not_or, Bool.not_eq_false] at hgiven
      split at h
      · exact (nomatch h)
      · rename_i task htask
        split at h
        · rename_i payload hpayload
          split at h
          · exact (nomatch h)
          · rename_i hmark
            split at h
            · simp only [reduceCtorEq] at h
            · exact (nomatch h)
            · rename_i share hshare
              split at h
              -- The one answer there is.
              · rename_i dest hkey
                rcases (send_head?_iff dest _ M o).mp (Except.ok.inj h) with ⟨hdest, hmsg, htext⟩
                rw [← hdest] at hkey htext
                exact ⟨hgiven.1, hgiven.2, task, payload, share, htask, hpayload,
                  Bool.not_eq_false _ ▸ hmark, hshare, hkey, htext, hmsg⟩
              · exact (nomatch h)
        · simp only [reduceCtorEq] at h
  · rintro ⟨htaskId, hfrom, task, payload, share, htask, hpayload, hmark, hshare, hkey, htext,
      hmsg⟩
    unfold handleShareRequest
    dsimp only
    rw [if_neg (by simp only [htaskId, hfrom, Bool.true_eq_false, or_self, not_false_eq_true]),
      htask]
    dsimp only
    rw [hpayload]
    dsimp only
    rw [if_neg (by rw [hmark]; exact Bool.true_eq_false.mp), hshare]
    dsimp only
    rw [hkey]
    dsimp only
    rw [(send_head?_iff o.dest _ M o).mpr ⟨rfl, hmsg, htext⟩]

/-- The share an answer carries, if it can be read. -/
def readResponse (P : Primitives) (msg : Msg) : Option (Int × Bytes) :=
  match lookup (lit "x") msg, lookup (lit "share") msg with
  | some x, some share =>
    match pyInt x, P.b64decode share with
    | .ok n, .ok b => some (n, b)
    | _, _ => none
  | _, _ => none

/-- Storing a share in a slot, unless its coordinate is already there. A number
    of shares that cannot be compared raises after the share is stored. -/
def Collection.add (col : Collection) (x : Int) (b : Bytes) : Collection :=
  if col.shares.any (fun s => pyEq s.1 (.int x)) then col
  else
    let shares := col.shares ++ [(.int x, b)]
    { col with
      shares := shares
      event := match lt (.int shares.length) col.needed with
        | .ok short => col.event || !short
        | .error _ => col.event }

/-- `_handle_share_response`. -/
def handleShareResponse (P : Primitives) (slots : Dict Key Collection) (msg : Msg) :
    Dict Key Collection :=
  let taskId := get msg (lit "task_id")
  if taskId.truthy = false then slots
  else match readResponse P msg, hashKey taskId with
    | some (x, b), .ok k =>
      match slots.get? k with
      | none => slots
      | some col => slots.set k (col.add x b)
    | _, _ => slots

/-! ## The desk of a node -/

/-- The slots of a node, the requests it sent and what its collections
    returned. -/
structure Desk where
  slots : Dict Key Collection := Dict.empty
  sent : List Send := []
  returned : List (Task × List (PyVal × Bytes)) := []

/-- `collect` starts the collection of a task, with the membership layer of the node;
    `response` is an answer that arrives; `wake` is the end of a wait. -/
inductive DeskEvent
  | collect (task : Task) (M : MembershipLayer) (uuid : PyStr)
  | response (msg : Msg)
  | wake (task : Task)

/-- One event. A request that cannot be sent to a peer ends the collection with an
    exception and leaves its slot open. -/
def Desk.step (P : Primitives) (cipher : PayloadCipher) (d : Desk) : DeskEvent → Option Desk
  | .collect task M uuid =>
    match beginCollection P cipher task with
    | .error _ => some d
    | .ok (.done shares) => some { d with returned := d.returned ++ [(task, shares)] }
    | .ok (.waiting k needed own) => some { d with
        slots := d.slots.set k { needed := needed, shares := [own] }
        sent := d.sent ++
          (MembershipLayer.broadcast (shareRequest M.ourKey uuid task) M).out }
  | .response msg => some { d with slots := handleShareResponse P d.slots msg }
  | .wake task =>
    match beginCollection P cipher task with
    | .ok (.waiting k _ own) =>
      let shares := match d.slots.get? k with
        | some col => col.shares
        | none => [own]
      some { d with slots := d.slots.erase k, returned := d.returned ++ [(task, shares)] }
    | _ => none

/-! ## Genuine shares -/

/-- An answer to some request, made by a node whose record of the task has this
    payload. -/
def Answer (P : Primitives) (taskId : PyStr) (payload : PyVal) (msg : Msg) : Prop :=
  ∃ cipher M uuid tasks request dest,
    handleShareRequest P cipher M uuid tasks request = .ok (some ⟨dest, msg⟩) ∧
      ∀ t ∈ tasks, t.taskId = .str taskId → t.payload = payload

/-- An event of a desk on which every record of the task has this payload and
    every answer about it is one of a node with such a record. -/
def DeskEvent.Honest (P : Primitives) (taskId : PyStr) (payload : PyVal) : DeskEvent → Prop
  | .collect task _ _ => task.taskId = .str taskId → task.payload = payload
  | .response msg => get msg (lit "task_id") = .str taskId → Answer P taskId payload msg
  | .wake task => task.taskId = .str taskId → task.payload = payload

/-- Shares of a split, with different coordinates. -/
structure Genuine (split : List Share) (shares : List (PyVal × Bytes)) : Prop where
  mem : ∀ s ∈ shares, ∃ e ∈ split, s = (.int e.1, e.2)
  nodup : (shares.map Prod.fst).Nodup

/-- How a share is filed in a slot. -/
def filed (e : Share) : PyVal × Bytes := (.int e.1, e.2)

/-- The shares are read back as they were filed. -/
theorem readShares_filed (kept : List Share) : readShares (kept.map filed) = .ok kept := by
  have hmap : ∀ es : List Share, (es.map filed).mapM
      (fun s => (coordinate s.1).map (fun n => (n, s.2))) = .ok es := by
    intro es
    induction es with
    | nil => rfl
    | cons e es ih =>
        rw [List.map_cons, List.mapM_cons, ih]
        rfl
  cases kept with
  | nil => rfl
  | cons e kept =>
      cases kept with
      | nil => rfl
      | cons e' kept => exact hmap (e :: e' :: kept)

/-- Genuine shares are shares of the split, as they were filed. -/
theorem filed_of_genuine {split : List Share} {shares : List (PyVal × Bytes)}
    (h : Genuine split shares) :
    ∃ points : List Share, shares = points.map filed ∧ ∀ e ∈ points, e ∈ split := by
  have hmem := h.mem
  clear h
  induction shares with
  | nil => exact ⟨[], rfl, fun e he => (List.not_mem_nil he).elim⟩
  | cons s rest ih =>
      rcases ih (fun s' hs' => hmem s' (List.mem_cons_of_mem _ hs')) with ⟨points, hrest, hsub⟩
      rcases hmem s (List.mem_cons_self ..) with ⟨e, he, hs⟩
      refine ⟨e :: points, by rw [List.map_cons, ← hrest, hs, filed], fun e' he' => ?_⟩
      rcases List.mem_cons.mp he' with he' | he'
      · rw [he']
        exact he
      · exact hsub e' he'

section Sealing

variable {P : Primitives} {rand : ThresholdCipher.Rand} {keys : List PyVal}
  {plaintext sealed : PyStr} {t : Nat}

theorem genuine_singleton {split : List Share} {e : Share} (he : e ∈ split) :
    Genuine split [(.int e.1, e.2)] :=
  ⟨fun _ hs => ⟨e, he, List.mem_singleton.mp hs⟩, List.nodup_singleton _⟩

/-- The share a node reads out of the sealed payload. -/
theorem own_genuine (hP : P.Lawful)
    (h : ThresholdCipher.encrypt P rand keys plaintext t = .ok sealed)
    (cipher : PayloadCipher) {own : PyVal × Bytes}
    (hown : ThresholdCipher.decryptOwnShare P cipher sealed = .ok (some own)) :
    ∃ e ∈ shamirSplit rand.aesKey keys.length t rand.coeffs, own = (.int e.1, e.2) := by
  rcases ThresholdCipher.encrypt_sealed P hP h with ⟨data, ct, entries, hsealed, heq⟩
  rw [heq] at hown
  rcases ThresholdCipher.decryptOwnShare_sealed hP hsealed cipher with
    ⟨hnone, _⟩ | ⟨i, _, e, _, _, he, hopen⟩
  · rw [hnone] at hown
    exact (nomatch hown)
  · rw [hopen, Except.ok.injEq, Option.some.injEq] at hown
    exact ⟨e, List.mem_of_getElem? he, hown.symm⟩

/-- An honest answer carries a share of the split. -/
theorem readResponse_answer (hP : P.Lawful)
    (h : ThresholdCipher.encrypt P rand keys plaintext t = .ok sealed) {taskId : PyStr} {msg : Msg}
    (hanswer : Answer P taskId (.str sealed) msg) (hid : get msg (lit "task_id") = .str taskId) :
    ∃ e ∈ shamirSplit rand.aesKey keys.length t rand.coeffs, readResponse P msg = some e := by
  rcases hanswer with ⟨cipher, M, uuid, tasks, request, dest, hsend, htasks⟩
  rcases (handleShareRequest_some_iff ..).mp hsend with
    ⟨_, _, task, payload, share, htask, hpayload, _, hshare, _, _, hmsg⟩
  dsimp only at hmsg
  -- The record that was found is the one of this task.
  have hfield : get msg (lit "task_id") = get request (lit "task_id") := by
    rw [hmsg]
    rfl
  have hfound := List.find?_some htask
  rw [← hfield, hid] at hfound
  have hrecord := htasks task (List.mem_of_find?_eq_some htask) ((pyEq_str _ _).mp hfound)
  rw [hpayload, PyVal.str.injEq] at hrecord
  rw [hrecord] at hshare
  rcases own_genuine hP h cipher hshare with ⟨e, he, hown⟩
  refine ⟨e, he, ?_⟩
  have hx : lookup (lit "x") msg = some (.int e.1) := by
    rw [hmsg, hown]
    rfl
  have hb : lookup (lit "share") msg = some (.str (P.b64encode e.2)) := by
    rw [hmsg, hown]
    rfl
  simp only [readResponse, hx, hb, pyInt_int, hP.b64]

/-- Adding a share of the split keeps shares genuine. -/
theorem genuine_append {split : List Share} {shares : List (PyVal × Bytes)} {e : Share}
    (h : Genuine split shares) (he : e ∈ split)
    (hnew : ¬ shares.any (fun s => pyEq s.1 (.int e.1)) = true) :
    Genuine split (shares ++ [(.int e.1, e.2)]) := by
  refine ⟨fun s hs => ?_, ?_⟩
  · rcases List.mem_append.mp hs with hs | hs
    · exact h.mem s hs
    · exact ⟨e, he, List.mem_singleton.mp hs⟩
  · rw [List.map_append, List.nodup_append]
    refine ⟨h.nodup, List.nodup_singleton _, fun x hx y hy hxy => ?_⟩
    rcases List.mem_map.mp hx with ⟨s, hs, hsx⟩
    refine hnew (List.any_eq_true.mpr ⟨s, hs, ?_⟩)
    rw [hsx, hxy, List.mem_singleton.mp hy]
    exact pyEq_refl _

/-- A slot that gets a share of the split holds genuine shares afterwards. -/
theorem genuine_add {split : List Share} {col : Collection} {e : Share}
    (h : Genuine split col.shares) (he : e ∈ split) : Genuine split (col.add e.1 e.2).shares := by
  unfold Collection.add
  by_cases hany : col.shares.any (fun s => pyEq s.1 (.int e.1)) = true
  · rw [if_pos hany]
    exact h
  · rw [if_neg hany]
    exact genuine_append h he hany

/-- The desk holds genuine shares of the task, and returned no others. -/
def DeskGenuine (taskId : PyStr) (split : List Share) (d : Desk) : Prop :=
  (∀ col, d.slots.get? (.str taskId) = some col → Genuine split col.shares) ∧
    ∀ r ∈ d.returned, r.1.taskId = .str taskId → Genuine split r.2

/-- What a collection of the task starts from. -/
theorem begin_genuine (hP : P.Lawful)
    (h : ThresholdCipher.encrypt P rand keys plaintext t = .ok sealed) {cipher : PayloadCipher}
    {task : Task} (hpayload : task.payload = .str sealed) {b : Begun}
    (hbegin : beginCollection P cipher task = .ok b) :
    Genuine (shamirSplit rand.aesKey keys.length t rand.coeffs) b.shares := by
  unfold beginCollection at hbegin
  rw [hpayload] at hbegin
  simp only at hbegin
  split at hbegin
  · rw [← Except.ok.inj hbegin]
    exact ⟨fun s hs => (List.not_mem_nil hs).elim, List.nodup_nil⟩
  · split at hbegin
    · simp only [reduceCtorEq] at hbegin
    · rw [← Except.ok.inj hbegin]
      exact ⟨fun s hs => (List.not_mem_nil hs).elim, List.nodup_nil⟩
    · -- The collection begins with the node's own share, which is genuine.
      rename_i own hown
      rcases own_genuine hP h cipher hown with ⟨e, he, heq⟩
      have hsingle := genuine_singleton he
      rw [← heq] at hsingle
      split at hbegin
      · simp only [reduceCtorEq] at hbegin
      · rw [← Except.ok.inj hbegin]
        exact hsingle
      · rw [← Except.ok.inj hbegin]
        exact hsingle
      · simp only [reduceCtorEq] at hbegin

/-- An honest answer adds no other share to the slot of the task. -/
theorem handleShareResponse_genuine (hP : P.Lawful)
    (h : ThresholdCipher.encrypt P rand keys plaintext t = .ok sealed) {taskId : PyStr}
    {slots : Dict Key Collection} {msg : Msg}
    (hslots : ∀ col, slots.get? (.str taskId) = some col →
      Genuine (shamirSplit rand.aesKey keys.length t rand.coeffs) col.shares)
    (hanswer : get msg (lit "task_id") = .str taskId → Answer P taskId (.str sealed) msg)
    {col : Collection} (hcol : (handleShareResponse P slots msg).get? (.str taskId) = some col) :
    Genuine (shamirSplit rand.aesKey keys.length t rand.coeffs) col.shares := by
  simp only [handleShareResponse] at hcol
  split at hcol
  · exact hslots col hcol
  · split at hcol
    · rename_i x b k hread hkey
      split at hcol
      · -- No collection of that task is under way.
        exact hslots col hcol
      · rename_i old hold
        rw [Dict.get?_set] at hcol
        by_cases hk : Key.str taskId = k
        · rw [if_pos hk, Option.some.injEq] at hcol
          rw [← hk] at hkey hold
          have hid := (hashKey_eq_str _ _).mp hkey
          -- What was read is the share that the honest node opened.
          rcases readResponse_answer hP h (hanswer hid) hid with ⟨e, he, hshare⟩
          rw [hread, Option.some.injEq] at hshare
          have hadd := genuine_add (hslots old hold) he
          rw [← hshare] at hadd
          rw [← hcol]
          exact hadd
        · rw [if_neg hk] at hcol
          exact hslots col hcol
    · exact hslots col hcol

/-- One step keeps the shares of the task genuine. -/
theorem step_genuine (hP : P.Lawful)
    (h : ThresholdCipher.encrypt P rand keys plaintext t = .ok sealed) {cipher : PayloadCipher}
    {taskId : PyStr} {d d' : Desk} {ev : DeskEvent}
    (hd : DeskGenuine taskId (shamirSplit rand.aesKey keys.length t rand.coeffs) d)
    (hev : ev.Honest P taskId (.str sealed)) (hstep : d.step P cipher ev = some d') :
    DeskGenuine taskId (shamirSplit rand.aesKey keys.length t rand.coeffs) d' := by
  -- What is returned for another task does not matter.
  have hreturn : ∀ (task : Task) (shares : List (PyVal × Bytes)),
      (task.taskId = .str taskId →
        Genuine (shamirSplit rand.aesKey keys.length t rand.coeffs) shares) →
      ∀ r ∈ d.returned ++ [(task, shares)], r.1.taskId = .str taskId →
        Genuine (shamirSplit rand.aesKey keys.length t rand.coeffs) r.2 := by
    intro task shares hshares r hr hid
    rcases List.mem_append.mp hr with hr | hr
    · exact hd.2 r hr hid
    · rw [List.mem_singleton.mp hr] at hid ⊢
      exact hshares hid
  cases ev with
  | collect task M uuid =>
      simp only [Desk.step] at hstep
      split at hstep
      · rw [← Option.some.inj hstep]
        exact hd
      · rename_i shares hbegin
        rw [← Option.some.inj hstep]
        exact ⟨hd.1, hreturn task shares (fun hid => begin_genuine hP h (hev hid) hbegin)⟩
      · rename_i k needed own hbegin
        rw [← Option.some.inj hstep]
        refine ⟨fun col hcol => ?_, hd.2⟩
        rw [Dict.get?_set] at hcol
        by_cases hk : Key.str taskId = k
        · rw [if_pos hk, Option.some.injEq] at hcol
          rw [← hcol]
          -- The slot of the task is opened for a record of the task.
          have hid : task.taskId = .str taskId := by
            have hkey := beginCollection_key hbegin
            rw [← hk] at hkey
            exact (hashKey_eq_str _ _).mp hkey
          exact begin_genuine hP h (hev hid) hbegin
        · rw [if_neg hk] at hcol
          exact hd.1 col hcol
  | response msg =>
      simp only [Desk.step, Option.some.injEq] at hstep
      rw [← hstep]
      exact ⟨fun col hcol => handleShareResponse_genuine hP h hd.1 hev hcol, hd.2⟩
  | wake task =>
      simp only [Desk.step] at hstep
      split at hstep
      · rename_i k needed own hbegin
        rw [← Option.some.inj hstep]
        refine ⟨fun col hcol => ?_, hreturn task _ (fun hid => ?_)⟩
        · -- The slot is closed, so only another task's may be found.
          by_cases hk : Key.str taskId = k
          · rw [hk, Dict.get?_erase_self] at hcol
            simp only [reduceCtorEq] at hcol
          · rw [Dict.get?_erase_of_ne _ _ _ hk] at hcol
            exact hd.1 col hcol
        · have hkey := beginCollection_key hbegin
          rw [hid, hashKey, Except.ok.injEq] at hkey
          split
          · rename_i col hcol
            rw [← hkey] at hcol
            exact hd.1 col hcol
          · exact begin_genuine hP h (hev hid) hbegin
      · simp only [reduceCtorEq] at hstep

/-- Whatever the order of the answers, the shares a run returns for the task are
    genuine. -/
theorem returned_genuine (hP : P.Lawful)
    (h : ThresholdCipher.encrypt P rand keys plaintext t = .ok sealed) (cipher : PayloadCipher)
    (taskId : PyStr) {es : List DeskEvent} {d : Desk}
    (hes : ∀ ev ∈ es, ev.Honest P taskId (.str sealed))
    (hrun : Machine.run (fun d ev => Desk.step P cipher d ev) {} es = some d) :
    ∀ r ∈ d.returned, r.1.taskId = .str taskId →
      Genuine (shamirSplit rand.aesKey keys.length t rand.coeffs) r.2 := by
  have hinit : DeskGenuine taskId (shamirSplit rand.aesKey keys.length t rand.coeffs) {} :=
    ⟨fun _ hcol => (nomatch hcol), fun _ hr => (List.not_mem_nil hr).elim⟩
  have hgenuine := Machine.invariant_run (fun d ev => Desk.step P cipher d ev)
    (DeskGenuine taskId (shamirSplit rand.aesKey keys.length t rand.coeffs))
    (fun _ ev => ev.Honest P taskId (.str sealed))
    (fun d ev d' hd hev hstep => step_genuine hP h hd hev hstep)
    hinit (Machine.along_of_forall _ _ _ _ (fun ev hev _ => hes ev hev)) hrun
  exact hgenuine.2

end Sealing

end WhisperNet
