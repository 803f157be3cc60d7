import WhisperNet.Runtime.Traffic

/-!
# Results and Their Buffer

A result message is made in one place, at the end of a completion, and only if
the record names a submitter. It goes to that key, or into the buffer of the
node if the key is its own. The buffer also takes the results that arrive, and a
request for them empties it.

No other message a node sends is a result: the membership layer has three types
of its own, the answers of the handlers have theirs, a relay has the type of what
it relays, and everything else carries a record.

## Main definitions

* `OfMembers`: A message of the membership protocol.
* `TaskLedger.notification`: The result message about a record.
* `notices`: The results a call hands out, each with the key it goes to.
* `keptLocal`, `WhisperNode.keeps`: The results a call leaves in the buffer.
* `accepted`: The results the receive loop puts into the buffer.

## Theorems

* `beat_ofMembers`: What the membership layer sends of its own accord.
* `receive_unreported`: The receive loop sends no results.
* `run_notices`: A result is about a record that was just completed.
* `transmit_result`, `mem_keptLocal`: Where the results of a call go.
* `receive_buffer`: What the receive loop adds to the buffer.
-/

namespace WhisperNet

open MembershipLayer TaskLedger WhisperNet.Action WhisperNode
open PyVal (get getD)

/-! ## The types of messages -/

def memberTypes : List PyStr := [lit "heartbeat", lit "suspicion", lit "node_join"]

/-- The message is one of the membership protocol. -/
def OfMembers (msg : Msg) : Prop := ∃ name ∈ memberTypes, get msg (lit "type") = .str name

theorem ofMembers_cons {name : PyStr} (rest : Msg) (h : name ∈ memberTypes) :
    OfMembers ((lit "type", .str name) :: rest) := ⟨name, h, by
  unfold PyVal.get
  rw [lookup, if_pos rfl]
  rfl⟩

/-- The frame of a computation that sends messages of the membership protocol. -/
def membersOnly : Frame MembershipLayer Send := keep (fun _ => True) (fun o => OfMembers o.msg)

theorem membersOnly_of_quiet {α : Type} {x : Act α} (hx : Within quiet x) :
    Within membersOnly x := fun s => withinAt_of_quiet (hx s) (fun _ => trivial)

theorem send_ofMembers (k : Key) {msg : Msg} (h : OfMembers msg) :
    Within membersOnly (send k msg) := by
  cases k with
  | num q => exact within_raise _
  | none => exact fun s => withinAt_emit (fun _ => h)
  | str x => exact fun s => withinAt_emit (fun _ => h)

theorem withEncPubkey_ofMembers (s : MembershipLayer) {msg : Msg} (h : OfMembers msg) :
    OfMembers (s.withEncPubkey msg) := by
  rcases h with ⟨name, hname, htype⟩
  exact ⟨name, hname, by rw [withEncPubkey_type, htype]⟩

theorem sendJoinTo_ofMembers (env : MemberEnv) (hops : Int) (k : Key) :
    Within membersOnly (sendJoinTo env hops k) := fun s => withinAt_read_bind
  (send_ofMembers k (withEncPubkey_ofMembers s (ofMembers_cons _ (by decide))) s)

theorem gossipSuspicion_ofMembers (env : MemberEnv) (suspect : Key) :
    Within membersOnly (gossipSuspicion env suspect) := by
  refine fun s => withinAt_read_bind (withinAt_of_still (fanout_still env _ s) (fun o ho _ => ?_))
  change OfMembers o.msg
  rw [ho.1]
  exact ofMembers_cons _ (by decide)

/-- What the membership layer sends of its own accord. -/
theorem beat_ofMembers (b : Beat) : Within membersOnly b.act := by
  cases b with
  | seed now peerKey =>
      refine fun s => withinAt_read_bind ?_
      split
      · exact membersOnly_of_quiet (discover_quiet now _) s
      · exact within_pure () s
  | join env =>
      exact fun s => withinAt_read_bind
        (within_each _ (fun k _ => sendJoinTo_ofMembers env _ k) s)
  | heartbeat env =>
      exact fun s => withinAt_read_bind (within_each _ (fun k _ =>
        send_ofMembers k (withEncPubkey_ofMembers s (ofMembers_cons _ (by decide)))) s)
  | detect env =>
      refine fun s => withinAt_read_bind ?_
      refine within_bind (membersOnly_of_quiet (suspectSilent_quiet _ _ _)) (fun suspected => ?_) s
      exact within_each _ (fun k _ => gossipSuspicion_ofMembers env k)
  -- A sync greets the new keys and suspects the dropped ones.
  | sync env connectedKeys =>
      refine fun s => withinAt_read_bind ?_
      refine within_bind (membersOnly_of_quiet (quiet_modify _)) (fun _ => ?_) s
      refine within_bind (membersOnly_of_quiet
        (within_each _ (fun k _ => discover_quiet env.now k))) (fun _ => ?_)
      refine within_bind (membersOnly_of_quiet (suspectSilent_quiet _ _ _)) (fun suspected => ?_)
      refine within_bind (within_each _ (fun k _ => sendJoinTo_ofMembers env 1 k)) (fun _ => ?_)
      exact within_each _ (fun k _ => gossipSuspicion_ofMembers env k)

/-- The message is a result. -/
def IsResult (msg : Msg) : Prop := get msg (lit "type") = .str (lit "task_result")

instance (msg : Msg) : Decidable (IsResult msg) := inferInstanceAs (Decidable (_ = _))

theorem not_result {name : PyStr} (rest : Msg) (h : name ≠ lit "task_result") :
    ¬ IsResult ((lit "type", .str name) :: rest) := by
  unfold IsResult PyVal.get
  rw [lookup, if_pos rfl]
  exact fun hc => h (PyVal.str.inj hc)

theorem OfMembers.not_result {msg : Msg} (h : OfMembers msg) : ¬ IsResult msg := by
  rcases h with ⟨name, hname, htype⟩
  unfold IsResult
  rw [htype]
  intro hc
  rw [PyVal.str.inj hc] at hname
  exact absurd hname (by decide)

/-- A relay is a result only if the message is one. -/
theorem relays_unreported {msg : Msg} {out : List Send} (hout : Relays msg out)
    (h : ¬ IsResult msg) : ∀ o ∈ out, ¬ IsResult o.msg := by
  intro o ho
  have htype : get o.msg (lit "type") = get msg (lit "type") := by
    unfold PyVal.get
    rw [lookup_relayed (hout.2 o ho) (by decide)]
  unfold IsResult
  rw [htype]
  exact h

theorem gossip_unreported {P : Primitives} {L : TaskLedger} {uuid : PyStr} {t : Task} {msg : Msg}
    (h : L.gossipTask P uuid t = .ok msg) : ¬ IsResult msg := by
  unfold gossipTask Signer.sign at h
  split at h
  · rw [Except.ok.injEq] at h
    rw [← h]
    exact not_result _ (by decide)
  · split at h
    · exact absurd h (by simp only [reduceCtorEq, not_false_eq_true])
    · rw [Except.ok.injEq] at h
      rw [← h]
      -- The signature stands behind the fields.
      exact not_result _ (by decide)

/-- A call that only gossips sends no results. -/
theorem transmit_unreported {P : Primitives} {env : Output → NodeEnv} {M : MembershipLayer}
    {L : TaskLedger} {out : List Output} (hout : ∀ o ∈ out, ∃ t, o = .gossip t) :
    ∀ o ∈ transmitEach P env M L out, ¬ IsResult o.msg := by
  intro o ho
  rcases mem_transmitEach ho with ⟨output, hoc, ⟨t, rfl, hmsg⟩ | rfl | ⟨dest, rfl⟩⟩
  · exact gossip_unreported hmsg
  · rcases hout _ hoc with ⟨t, hc⟩
    cases hc
  · rcases hout _ hoc with ⟨t, hc⟩
    cases hc

/-! ## The results of a call -/

/-- The result message `_notify_submitter` makes about a record. -/
def TaskLedger.notification (L : TaskLedger) (uuid : PyStr) (task : Task) : Msg :=
  [(lit "type", .str (lit "task_result")),
   (lit "msg_id", .str uuid),
   (lit "from", .str L.ourKey),
   (lit "task_id", task.taskId),
   (lit "shard_id", task.shardId),
   (lit "result", task.result),
   (lit "completed_at", task.completedAt)]

theorem notifySubmitter_eq (L : TaskLedger) (uuid : PyStr) (task : Task) :
    L.notifySubmitter uuid task =
      if task.submitterKey.truthy = false then []
      else if task.submitterKey = .str L.ourKey then [.localResult (L.notification uuid task)]
      else [.taskResult task.submitterKey (L.notification uuid task)] := rfl

/-- The results among the outputs of a call, each with the key it goes to. -/
def notices (ourKey : PyStr) (out : List Output) : List (PyVal × Msg) :=
  out.filterMap (fun o => match o with
    | .taskResult dest msg => some (dest, msg)
    | .localResult msg => some (.str ourKey, msg)
    | _ => none)

theorem mem_notices {ourKey : PyStr} {out : List Output} {dest : PyVal} {msg : Msg} :
    (dest, msg) ∈ notices ourKey out ↔
      .taskResult dest msg ∈ out ∨ .localResult msg ∈ out ∧ dest = .str ourKey := by
  unfold notices
  rw [List.mem_filterMap]
  constructor
  · rintro ⟨o, ho, heq⟩
    cases o with
    | gossip t => cases heq
    | relay m => cases heq
    | taskResult d m =>
        rw [Option.some.injEq, Prod.mk.injEq] at heq
        rw [← heq.1, ← heq.2]
        exact Or.inl ho
    | localResult m =>
        rw [Option.some.injEq, Prod.mk.injEq] at heq
        rw [← heq.2]
        exact Or.inr ⟨ho, heq.1.symm⟩
  · rintro (h | ⟨h, rfl⟩)
    · exact ⟨_, h, rfl⟩
    · exact ⟨_, h, rfl⟩

/-- Every other call only gossips. -/
theorem run_gossips (P : Primitives) (L : TaskLedger) (c : Call)
    (hc : ∀ taskId result now uuid, c ≠ .completeTask taskId result now uuid) :
    ∀ o ∈ (c.run P L).2, ∃ t, o = .gossip t := by
  have hidle : ∀ {o : Outcome Bool}, L.Idle o → ∀ x ∈ o.out, ∃ t, x = .gossip t := by
    intro o h x hx
    rw [h.out] at hx
    exact (List.not_mem_nil hx).elim
  have hwrote : ∀ {o : Outcome Bool} {taskId old new}, L.Wrote o taskId old new →
      new.status ≠ .completed → ∀ x ∈ o.out, ∃ t, x = .gossip t :=
    fun hw hopen x hx => ⟨_, hw.gossips hopen x hx⟩
  have hbump : ∀ assign, ∀ x ∈ (L.bumpAll assign).out, ∃ t, x = .gossip t := by
    intro assign x hx
    rcases L.bumpAll_out assign x hx with ⟨_, _, t, hxt, _⟩
    exact ⟨t, hxt⟩
  cases c with
  | submitTask env taskId payload shardId submitterKey =>
      exact fun x hx => ⟨_, List.mem_singleton.mp hx⟩
  | claimTask taskId now =>
      rcases L.claimTask_cases taskId now with h | ⟨_, _, hw, _, hstatus, _⟩
      · exact hidle h
      · exact hwrote hw (by rw [hstatus]; simp only [ne_eq, reduceCtorEq, not_false_eq_true])
  | renewLease taskId now =>
      rcases L.renewLease_cases taskId now with h | ⟨_, _, hw, hmine, hstatus, _⟩
      · exact hidle h
      · exact hwrote hw (by rw [hstatus]; exact not_completed_of_isMine hmine)
  | completeTask taskId result now uuid => exact absurd rfl (hc taskId result now uuid)
  | releaseLease taskId =>
      rcases L.releaseLease_cases taskId with ⟨h, _⟩ | ⟨_, _, hw, _, hpending, _⟩
      · exact hidle h
      · exact hwrote hw (by rw [hpending]; simp only [ne_eq, reduceCtorEq, not_false_eq_true])
  | releaseAllLeases => exact hbump _
  | recoverIdentity now => exact hbump _

/-- Calls that only gossip have no results. -/
theorem notices_nil {ourKey : PyStr} {out : List Output} (hout : ∀ o ∈ out, ∃ t, o = .gossip t) :
    notices ourKey out = [] := by
  refine List.filterMap_eq_nil_iff.mpr (fun o ho => ?_)
  rcases hout o ho with ⟨t, rfl⟩
  rfl

/-- The one result of a completion: to the submitter, if the record names one. -/
theorem mem_notify {L : TaskLedger} {uuid : PyStr} {task : Task} {dest : PyVal} {msg : Msg}
    (h : (dest, msg) ∈ notices L.ourKey (L.notifySubmitter uuid task)) :
    task.submitterKey = dest ∧ dest.truthy = true ∧ msg = L.notification uuid task := by
  rw [notifySubmitter_eq] at h
  by_cases hnone : task.submitterKey.truthy = false
  · rw [if_pos hnone] at h
    exact (List.not_mem_nil h).elim
  · rw [if_neg hnone] at h
    rw [Bool.not_eq_false] at hnone
    by_cases hself : task.submitterKey = .str L.ourKey
    · rw [if_pos hself] at h
      have heq := List.mem_singleton.mp h
      rw [Prod.mk.injEq] at heq
      rw [heq.1, ← hself]
      exact ⟨rfl, hnone, heq.2⟩
    · rw [if_neg hself] at h
      have heq := List.mem_singleton.mp h
      rw [Prod.mk.injEq] at heq
      rw [heq.1]
      exact ⟨rfl, hnone, heq.2⟩

/-- What a completion that hands out a result has written. -/
theorem completeTask_notices {L : TaskLedger} {taskId result : PyStr} {now : ℚ} {uuid : PyStr}
    {dest : PyVal} {msg : Msg}
    (h : (dest, msg) ∈ notices L.ourKey (L.completeTask taskId result now uuid).out) :
    ∃ task, (L.completeTask taskId result now uuid).ledger.tasks.get? (.str taskId) = some task ∧
      task.status = .completed ∧ task.result = .str result ∧ task.completedAt = .float now ∧
      task.submitterKey = dest ∧ dest.truthy = true ∧ msg = L.notification uuid task := by
  unfold completeTask at h ⊢
  cases hfind : L.find? taskId with
  | none =>
      rw [hfind] at h
      exact (List.not_mem_nil h).elim
  | some old =>
      rw [hfind] at h
      dsimp only at h ⊢
      by_cases hholder : old.leasedBy ≠ .str L.ourKey
      · rw [if_pos hholder] at h
        exact (List.not_mem_nil h).elim
      · rw [if_neg hholder] at h ⊢
        -- The digest and the count come before anything is sent.
        cases hdigest : digest16 result with
        | error e =>
            rw [hdigest] at h
            exact (List.not_mem_nil h).elim
        | ok resultHash =>
            rw [hdigest] at h
            dsimp only at h ⊢
            cases hversion : old.version.incr with
            | error e =>
                rw [hversion] at h
                exact (List.not_mem_nil h).elim
            | ok v =>
                rw [hversion] at h
                rcases mem_notify h with ⟨hdest, htruthy, hmsg⟩
                exact ⟨_, Dict.get?_set_self _ _ _, rfl, rfl, rfl, hdest, htruthy, hmsg⟩

/-- A result is about a record that was just completed, and goes to its submitter. -/
theorem run_notices (P : Primitives) (L : TaskLedger) (c : Call) {dest : PyVal} {msg : Msg}
    (h : (dest, msg) ∈ notices L.ourKey (c.run P L).2) :
    ∃ taskId result now uuid task, c = .completeTask taskId result now uuid ∧
      (c.run P L).1.tasks.get? (.str taskId) = some task ∧ task.status = .completed ∧
      task.result = .str result ∧ task.completedAt = .float now ∧ task.submitterKey = dest ∧
      dest.truthy = true ∧ msg = L.notification uuid task := by
  by_cases hc : ∃ taskId result now uuid, c = .completeTask taskId result now uuid
  · rcases hc with ⟨taskId, result, now, uuid, rfl⟩
    rcases completeTask_notices h with ⟨task, hrest⟩
    exact ⟨taskId, result, now, uuid, task, rfl, hrest⟩
  · rw [notices_nil (run_gossips P L c (fun a b d e hc' => hc ⟨a, b, d, e, hc'⟩))] at h
    exact (List.not_mem_nil h).elim

/-! ## Where results go -/

/-- The result an output keeps for the node itself. -/
def Output.own : Output → List Msg
  | .localResult msg => [msg]
  | _ => []

/-- The results a call keeps for its own node: those it comes to before a send
    raises. -/
def keptLocal (P : Primitives) (env : Output → NodeEnv) (M : MembershipLayer) (L : TaskLedger) :
    List Output → List Msg
  | [] => []
  | o :: rest => o.own ++
    bif (sendOne P (env o) M L o).2 then keptLocal P env M L rest else []

/-- The results a call leaves in the buffer of its node. -/
def WhisperNode.keeps (P : Primitives) (s : WhisperNode) (c : Call) (env : Output → NodeEnv) :
    List Msg :=
  keptLocal P env s.membership (c.run P s.ledger).1 (c.run P s.ledger).2

theorem mem_keptLocal {P : Primitives} {env : Output → NodeEnv} {M : MembershipLayer}
    {L : TaskLedger} {out : List Output} {msg : Msg} (h : msg ∈ keptLocal P env M L out) :
    .localResult msg ∈ out := by
  induction out with
  | nil => exact (List.not_mem_nil h).elim
  | cons o out ih =>
      rw [keptLocal] at h
      rcases List.mem_append.mp h with h | h
      · cases o with
        | localResult m =>
            rw [List.mem_singleton.mp h]
            exact List.mem_cons_self ..
        | gossip t => exact (List.not_mem_nil h).elim
        | relay m => exact (List.not_mem_nil h).elim
        | taskResult d m => exact (List.not_mem_nil h).elim
      · cases hsent : (sendOne P (env o) M L o).2 with
        | true =>
            rw [hsent] at h
            exact List.mem_cons_of_mem _ (ih h)
        | false =>
            rw [hsent] at h
            exact (List.not_mem_nil h).elim

theorem send_dest {k : Key} {msg : Msg} {M : MembershipLayer} {sent : Send}
    (h : sent ∈ (MembershipLayer.send k msg M).out) : sent.dest = k := by
  cases k with
  | num q => exact (List.not_mem_nil h).elim
  | none => rw [List.mem_singleton.mp h]
  | str x => rw [List.mem_singleton.mp h]

/-- A result a call sends goes to the key it was made for. -/
theorem transmit_result {P : Primitives} {env : Output → NodeEnv} {M : MembershipLayer}
    {L : TaskLedger} {out : List Output} (hout : ∀ o ∈ out, Reports o) {sent : Send}
    (h : sent ∈ transmitEach P env M L out) (hresult : IsResult sent.msg) :
    ∃ dest, hashKey dest = .ok sent.dest ∧ .taskResult dest sent.msg ∈ out := by
  induction out with
  | nil => exact (List.not_mem_nil h).elim
  | cons o out ih =>
      rw [transmitEach] at h
      rcases List.mem_append.mp h with h | h
      · cases o with
        | gossip t =>
            rcases mem_sendOne h with ⟨t', _, hmsg⟩ | hrelay | ⟨dest, hdest⟩
            · exact absurd hresult (gossip_unreported hmsg)
            · cases hrelay
            · cases hdest
        | relay m =>
            rcases hout _ (List.mem_cons_self ..) with ⟨t, hc⟩ | ⟨m', _, hc | ⟨d, hc⟩⟩
            · cases hc
            · cases hc
            · cases hc
        | taskResult dest m =>
            rw [sendOne] at h
            split at h
            · exact (List.not_mem_nil h).elim
            · rename_i k hkey
              rw [send_msg h, send_dest h]
              exact ⟨dest, hkey, List.mem_cons_self ..⟩
        | localResult m => exact (List.not_mem_nil h).elim
      · cases hsent : (sendOne P (env o) M L o).2 with
        | true =>
            rw [hsent] at h
            rcases ih (fun o' ho' => hout o' (List.mem_cons_of_mem _ ho')) h with ⟨dest, hkey, hmem⟩
            exact ⟨dest, hkey, List.mem_cons_of_mem _ hmem⟩
        | false =>
            rw [hsent] at h
            exact (List.not_mem_nil h).elim

/-! ## The receive loop -/

/-- The results the receive loop puts into the buffer: a result whose id and text
    can be sliced for the log line. -/
def accepted (msg : Msg) : List Msg :=
  let result := get msg (lit "result")
  if IsResult msg ∧ ((getD msg (lit "task_id") (.str (lit "?"))).sliceable
      && (!result.truthy || result.sliceable)) = true then [msg]
  else []

theorem mem_accepted {msg m : Msg} (h : m ∈ accepted msg) : m = msg ∧ IsResult msg := by
  unfold accepted at h
  dsimp only at h
  split at h
  · rename_i hc
    exact ⟨List.mem_singleton.mp h, hc.1⟩
  · exact (List.not_mem_nil h).elim

section Receive

variable (P : Primitives) (s : WhisperNode) (env : NodeEnv) (fromPeer : PyVal) (msg : Msg)

/-- What the receive loop adds to the buffer. -/
theorem receive_buffer :
    (s.receive P env fromPeer msg).1.taskResults = s.taskResults ++ accepted msg := by
  by_cases hresult : IsResult msg
  · have htype : get msg (lit "type") = .str (lit "task_result") := hresult
    unfold receive isMembership accepted handleTaskResult
    simp only [htype, hresult, true_and]
    rw [if_neg (by decide), if_neg (by decide), if_neg (by decide), if_neg (by decide),
      if_neg (by decide), if_neg (by decide), if_pos (by decide)]
    split
    · rfl
    · exact (List.append_nil _).symm
  · -- No other branch touches the buffer.
    have hnone : accepted msg = [] := by
      unfold accepted
      rw [if_neg (fun hc => hresult hc.1)]
    rw [hnone, List.append_nil]
    unfold receive
    dsimp only
    split
    · rfl
    · split
      · rfl
      · split
        · unfold handleP2pTaskSubmit
          split
          · rfl
          · rfl
        · split
          · unfold handleTaskBidRequest
            dsimp only
            split
            · rfl
            · split
              · rfl
              · rfl
          · split
            · unfold handleTaskBid
              dsimp only
              split
              · rfl
              · split
                · split
                  · rfl
                  · rfl
                · rfl
            · split
              · unfold handleTaskAward
                split
                · split
                  · rfl
                  · rfl
                · rfl
              · split
                · rename_i hc
                  exact absurd ((pyEq_str _ _).mp hc) hresult
                · split
                  · rfl
                  · split
                    · rfl
                    · rfl

theorem bidRequest_unreported : ∀ o ∈ (s.handleTaskBidRequest env msg).2, ¬ IsResult o.msg := by
  intro o ho
  unfold handleTaskBidRequest at ho
  dsimp only at ho
  split at ho
  · exact (List.not_mem_nil ho).elim
  · split at ho
    · exact (List.not_mem_nil ho).elim
    · rw [send_msg ho]
      exact not_result _ (by decide)

theorem shareRequest_unreported : ∀ o ∈ s.answerShareRequest P env msg, ¬ IsResult o.msg := by
  intro o ho
  unfold answerShareRequest at ho
  split at ho
  · rename_i answer hanswer
    rcases (handleShareRequest_some_iff ..).mp hanswer with ⟨_, _, _, _, _, _, _, _, _, _, _, hmsg⟩
    rw [List.mem_singleton.mp ho, hmsg]
    exact not_result _ (by decide)
  · exact (List.not_mem_nil ho).elim

/-- What a message asks the ledger for is gossiped. -/
theorem request_gossips {e : TaskLedger × List Output} (h : s.request P env msg = some e) :
    ∀ o ∈ e.2, ∃ t, o = .gossip t := by
  unfold request at h
  by_cases hsubmit : get msg (lit "type") = .str (lit "task_submit")
  · rw [if_pos hsubmit] at h
    rcases Option.map_eq_some_iff.mp h with ⟨o, ho, rfl⟩
    unfold submission at ho
    split at ho
    · cases ho
    · split at ho
      · cases ho
      · rw [← Option.some.inj ho]
        intro x hx
        simp only [Outcome.effect, submitRaw] at hx
        split at hx
        · exact (List.not_mem_nil hx).elim
        · exact ⟨_, List.mem_singleton.mp hx⟩
  · rw [if_neg hsubmit] at h
    split at h
    · split at h
      · split at h
        · cases h
        · rw [← Option.some.inj h]
          exact run_gossips P s.ledger _ (fun _ _ _ _ hc => by cases hc)
      · cases h
    · cases h

/-- The receive loop sends no results. -/
theorem receive_unreported : ∀ o ∈ (s.receive P env fromPeer msg).2, ¬ IsResult o.msg := by
  have hne : ∀ {name}, get msg (lit "type") ≠ .str name →
      ¬ pyEq (get msg (lit "type")) (.str name) = true := fun h hc => h ((pyEq_str _ _).mp hc)
  by_cases hgossip : isGossip msg = true
  · -- A relay has the type of what it relays, which is none of the results.
    refine relays_unreported (receive_relays P s env fromPeer msg hgossip) (fun hc => ?_)
    unfold isGossip isMembership at hgossip
    rw [show get msg (lit "type") = .str (lit "task_result") from hc] at hgossip
    exact absurd hgossip (by decide)
  · unfold isGossip at hgossip
    rw [Bool.or_eq_true, not_or, pyEq_str] at hgossip
    by_cases hask : get msg (lit "type") = .str (lit "task_submit") ∨
        get msg (lit "type") = .str (lit "task_award")
    · rcases receive_asks P s env fromPeer hask with ⟨_, hrun⟩ | ⟨e, hsome, hrun⟩
      · rw [hrun]
        exact fun o ho => (List.not_mem_nil ho).elim
      · rw [hrun, transmit_eq]
        exact transmit_unreported (request_gossips P s env msg hsome)
    · rw [not_or] at hask
      have hnil : ∀ o ∈ ([] : List Send), ¬ IsResult o.msg := fun o ho => (List.not_mem_nil ho).elim
      unfold receive
      simp only [if_neg hgossip.1, if_neg (hne hgossip.2), if_neg (hne hask.1), if_neg (hne hask.2)]
      split
      · exact bidRequest_unreported s env msg
      · split
        · exact hnil
        · split
          · exact hnil
          · split
            · exact shareRequest_unreported P s env msg
            · split
              · exact hnil
              · exact hnil

end Receive

end WhisperNet
