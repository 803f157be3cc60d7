import WhisperNet.Cluster.Flood
import WhisperNet.Cluster.Mesh
import WhisperNet.Runtime.Node

/-!
# What a Node Sends

The messages of a node by their origin. The updates of the ledger come from the
ledger only: the operations of the membership layer and the answers of the
handlers have other types, and a relay has the type of the message it relays.
A message that makes the ledger do something of its own is a submission or an
award, and what it makes of it is an operation the ledger could have been asked
for directly.

A call can gossip several records, and each of them gets an id and shuffles of
its own, which `transmitEach` takes from a function of the output.

## Main definitions

* `Aside`: A message that is no update of the ledger.
* `WhisperNode.request`: The operation a received message asks the ledger for.
* `sendOne`, `transmitEach`: What becomes of the outputs of a call.

## Theorems

* `beat_aside`, `receive_aside`: The layers beside the ledger send no updates.
* `receive_asks`: A submission or an award is the operation it asks for.
* `transmit_eq`: The sending of the receive loop is the one of a call.
* `mem_transmitEach`: A message comes from one of the outputs.
* `run_out`: A call gossips records and reports results.
-/

namespace WhisperNet

open MembershipLayer TaskLedger WhisperNet.Action WhisperNode
open PyVal (get getD)

/-- The message is no update of the ledger. -/
def Aside (o : Send) : Prop := get o.msg (lit "type") ≠ .str (lit "ledger_update")

instance (o : Send) : Decidable (Aside o) := inferInstanceAs (Decidable (_ ≠ _))

/-- A message that starts with another type. -/
theorem other_type {name : PyStr} (rest : Msg) (h : name ≠ lit "ledger_update") :
    get ((lit "type", .str name) :: rest) (lit "type") ≠ .str (lit "ledger_update") := by
  unfold PyVal.get
  rw [lookup, if_pos rfl]
  exact fun hc => h (PyVal.str.inj hc)

/-! ## The membership layer -/

/-- The frame of a computation that sends no updates. -/
def aside : Frame MembershipLayer Send := keep (fun _ => True) Aside

theorem aside_of_quiet {α : Type} {x : Act α} (hx : Within quiet x) : Within aside x := fun s =>
  withinAt_of_quiet (hx s) (fun _ => trivial)

theorem send_aside (k : Key) {msg : Msg} (h : get msg (lit "type") ≠ .str (lit "ledger_update")) :
    Within aside (send k msg) := by
  cases k with
  | num q => exact within_raise _
  | none => exact fun s => withinAt_emit (fun _ => h)
  | str x => exact fun s => withinAt_emit (fun _ => h)

theorem fanout_aside (env : MemberEnv) {msg : Msg}
    (h : get msg (lit "type") ≠ .str (lit "ledger_update")) : Within aside (fanout env msg) := by
  refine fun s => withinAt_of_still (fanout_still env msg s) (fun o ho _ => ?_)
  rw [Aside, ho.1]
  exact h

/-- The advertised key does not change the type. -/
theorem withEncPubkey_type (s : MembershipLayer) (msg : Msg) :
    get (s.withEncPubkey msg) (lit "type") = get msg (lit "type") := by
  unfold PyVal.get
  rw [lookup_withEncPubkey s msg _ (by decide)]

theorem sendJoinTo_aside (env : MemberEnv) (hops : Int) (k : Key) :
    Within aside (sendJoinTo env hops k) := by
  refine fun s => withinAt_read_bind (send_aside k ?_ s)
  rw [withEncPubkey_type]
  exact other_type _ (by decide)

theorem gossipSuspicion_aside (env : MemberEnv) (suspect : Key) :
    Within aside (gossipSuspicion env suspect) :=
  fun s => withinAt_read_bind (fanout_aside env (other_type _ (by decide)) s)

theorem beat_aside (b : Beat) : Within aside b.act := by
  cases b with
  | seed now peerKey =>
      refine fun s => withinAt_read_bind ?_
      split
      · exact aside_of_quiet (discover_quiet now _) s
      · exact within_pure () s
  | join env =>
      exact fun s => withinAt_read_bind (within_each _ (fun k _ => sendJoinTo_aside env _ k) s)
  | heartbeat env =>
      refine fun s => withinAt_read_bind (within_each _ (fun k _ => send_aside k ?_) s)
      rw [withEncPubkey_type]
      exact other_type _ (by decide)
  | detect env =>
      refine fun s => withinAt_read_bind ?_
      refine within_bind (aside_of_quiet (suspectSilent_quiet _ _ _)) (fun suspected => ?_) s
      exact within_each _ (fun k _ => gossipSuspicion_aside env k)
  | sync env connectedKeys =>
      refine fun s => withinAt_read_bind ?_
      refine within_bind (aside_of_quiet (quiet_modify _)) (fun _ => ?_) s
      refine within_bind (aside_of_quiet (within_each _ (fun k _ => discover_quiet env.now k)))
        (fun _ => ?_)
      refine within_bind (aside_of_quiet (suspectSilent_quiet _ _ _)) (fun suspected => ?_)
      refine within_bind (within_each _ (fun k _ => sendJoinTo_aside env 1 k)) (fun _ => ?_)
      exact within_each _ (fun k _ => gossipSuspicion_aside env k)

/-! ## The receive loop -/

theorem relays_aside {msg : Msg} {out : List Send}
    (h : get msg (lit "type") ≠ .str (lit "ledger_update")) (hout : Relays msg out) :
    ∀ o ∈ out, Aside o := by
  intro o ho
  have htype : get o.msg (lit "type") = get msg (lit "type") := by
    unfold PyVal.get
    rw [lookup_relayed (hout.2 o ho) (by decide)]
  rw [Aside, htype]
  exact h

theorem bidRequest_aside (s : WhisperNode) (env : NodeEnv) (msg : Msg) :
    ∀ o ∈ (s.handleTaskBidRequest env msg).2, Aside o := by
  unfold handleTaskBidRequest
  dsimp only
  split
  · exact fun o ho => (List.not_mem_nil ho).elim
  · split
    · exact fun o ho => (List.not_mem_nil ho).elim
    · rename_i dest _
      exact fun o ho => (send_aside dest (other_type _ (by decide)) s.membership).2 o ho trivial

theorem shareRequest_aside (P : Primitives) (s : WhisperNode) (env : NodeEnv) (msg : Msg) :
    ∀ o ∈ s.answerShareRequest P env msg, Aside o := by
  intro o ho
  unfold answerShareRequest at ho
  split at ho
  · rename_i answer hanswer
    rcases (handleShareRequest_some_iff ..).mp hanswer with ⟨_, _, _, _, _, _, _, _, _, _, _, hmsg⟩
    rw [List.mem_singleton.mp ho, Aside, hmsg]
    exact other_type _ (by decide)
  · exact (List.not_mem_nil ho).elim

/-- Messages of other types are not answered with updates. -/
theorem receive_aside (P : Primitives) (s : WhisperNode) (env : NodeEnv) (fromPeer : PyVal)
    {msg : Msg} (hupdate : get msg (lit "type") ≠ .str (lit "ledger_update"))
    (hsubmit : get msg (lit "type") ≠ .str (lit "task_submit"))
    (haward : get msg (lit "type") ≠ .str (lit "task_award")) :
    ∀ o ∈ (s.receive P env fromPeer msg).2, Aside o := by
  have hne : ∀ {name}, get msg (lit "type") ≠ .str name →
      ¬ pyEq (get msg (lit "type")) (.str name) = true := fun h hc => h ((pyEq_str _ _).mp hc)
  have hnil : ∀ o ∈ ([] : List Send), Aside o := fun o ho => (List.not_mem_nil ho).elim
  unfold receive
  simp only [if_neg (hne hupdate), if_neg (hne hsubmit), if_neg (hne haward)]
  split
  · exact relays_aside hupdate (handleMessage_relays env.member fromPeer msg s.membership)
  · split
    · exact bidRequest_aside s env msg
    · split
      · exact hnil
      · split
        · exact hnil
        · split
          · exact shareRequest_aside P s env msg
          · split
            · exact hnil
            · exact hnil

/-- The operation of the ledger that a submission or an award asks for. -/
def WhisperNode.request (P : Primitives) (s : WhisperNode) (env : NodeEnv) (msg : Msg) :
    Option (TaskLedger × List Output) :=
  if get msg (lit "type") = .str (lit "task_submit") then
    (s.submission P env msg).map Outcome.effect
  else if get msg (lit "type") = .str (lit "task_award") then
    match get msg (lit "task_id") with
    | .str taskId =>
      if taskId = [] ∨ get msg (lit "winner") ≠ .str s.membership.ourKey then none
      else some ((Call.claimTask taskId env.member.now).run P s.ledger)
    | _ => none
  else none

/-- A submission or an award does what it asks for, or nothing. -/
theorem receive_asks (P : Primitives) (s : WhisperNode) (env : NodeEnv) (fromPeer : PyVal)
    {msg : Msg} (htype : get msg (lit "type") = .str (lit "task_submit") ∨
      get msg (lit "type") = .str (lit "task_award")) :
    (s.request P env msg = none ∧ s.receive P env fromPeer msg = (s, [])) ∨
      ∃ e, s.request P env msg = some e ∧ s.receive P env fromPeer msg =
        ({ s with ledger := e.1 }, transmit P env s.membership e.1 e.2) := by
  rcases htype with hsubmit | haward
  · rw [receive_submit P s env fromPeer hsubmit]
    unfold request handleP2pTaskSubmit
    rw [if_pos hsubmit]
    cases s.submission P env msg with
    | none => exact Or.inl ⟨rfl, rfl⟩
    | some o => exact Or.inr ⟨_, rfl, rfl⟩
  · -- An award is no submission.
    have hno : ¬ get msg (lit "type") = .str (lit "task_submit") := by
      rw [haward]
      exact fun hc => absurd (PyVal.str.inj hc) (by decide)
    rw [receive_award P s env fromPeer haward]
    unfold request handleTaskAward
    rw [if_neg hno, if_pos haward]
    cases get msg (lit "task_id") with
    | str taskId =>
        dsimp only
        split
        · exact Or.inl ⟨rfl, rfl⟩
        · exact Or.inr ⟨_, rfl, rfl⟩
    | _ => exact Or.inl ⟨rfl, rfl⟩

/-! ## The outputs of a call -/

/-- What an output of the ledger is sent as, and whether the sending returned. -/
def sendOne (P : Primitives) (env : NodeEnv) (M : MembershipLayer) (L : TaskLedger) :
    Output → List Send × Bool
  | .gossip task =>
    match L.gossipTask P env.uuid task with
    | .error _ => ([], false)
    | .ok msg => ((fanout env.member msg M).out, (fanout env.member msg M).ret.isOk)
  | .relay msg => ((fanout env.member msg M).out, (fanout env.member msg M).ret.isOk)
  | .taskResult dest notification =>
    match hashKey dest with
    | .error _ => ([], true)
    | .ok k => ((MembershipLayer.send k notification M).out,
        (MembershipLayer.send k notification M).ret.isOk)
  | .localResult _ => ([], true)

/-- The messages that the outputs of a call become, each sent in an environment
    of its own. After one that raises nothing is sent. -/
def transmitEach (P : Primitives) (env : Output → NodeEnv) (M : MembershipLayer) (L : TaskLedger) :
    List Output → List Send
  | [] => []
  | o :: rest => (sendOne P (env o) M L o).1 ++
    bif (sendOne P (env o) M L o).2 then transmitEach P env M L rest else []

/-- With one environment it is what the receive loop does. -/
theorem transmit_eq (P : Primitives) (env : NodeEnv) (M : MembershipLayer) (L : TaskLedger)
    (outs : List Output) : transmit P env M L outs = transmitEach P (fun _ => env) M L outs := by
  -- A send that raises ends the loop, for each kind of output.
  induction outs with
  | nil => rfl
  | cons o outs ih =>
      cases o with
      | gossip task =>
          simp only [transmit, transmitEach, sendOne, ih]
          cases L.gossipTask P env.uuid task with
          | error e => rfl
          | ok msg =>
              dsimp only
              cases (fanout env.member msg M).ret with
              | ok u => rfl
              | error e => exact (List.append_nil _).symm
      | relay msg =>
          simp only [transmit, transmitEach, sendOne, ih]
          cases (fanout env.member msg M).ret with
          | ok u => rfl
          | error e => exact (List.append_nil _).symm
      | taskResult dest notification =>
          simp only [transmit, transmitEach, sendOne, ih]
          cases hashKey dest with
          | error e => rfl
          | ok k =>
              dsimp only
              cases (MembershipLayer.send k notification M).ret with
              | ok u => rfl
              | error e => exact (List.append_nil _).symm
      | localResult notification => exact ih

theorem send_msg {k : Key} {msg : Msg} {M : MembershipLayer} {sent : Send}
    (h : sent ∈ (MembershipLayer.send k msg M).out) : sent.msg = msg := by
  cases k with
  | num q => exact (List.not_mem_nil h).elim
  | none => rw [List.mem_singleton.mp h]
  | str x => rw [List.mem_singleton.mp h]

/-- The message an output is sent as. -/
def Becomes (P : Primitives) (env : NodeEnv) (L : TaskLedger) (o : Output) (msg : Msg) : Prop :=
  (∃ t, o = .gossip t ∧ L.gossipTask P env.uuid t = .ok msg) ∨ o = .relay msg ∨
    ∃ dest, o = .taskResult dest msg

theorem mem_sendOne {P : Primitives} {env : NodeEnv} {M : MembershipLayer} {L : TaskLedger}
    {o : Output} {sent : Send} (h : sent ∈ (sendOne P env M L o).1) :
    Becomes P env L o sent.msg := by
  cases o with
  | gossip t =>
      rw [sendOne] at h
      split at h
      · exact (List.not_mem_nil h).elim
      · rename_i msg hmsg
        rw [← ((fanout_still env.member msg M).2 sent h).1] at hmsg
        exact Or.inl ⟨t, rfl, hmsg⟩
  | relay msg =>
      rw [sendOne] at h
      rw [((fanout_still env.member msg M).2 sent h).1]
      exact Or.inr (Or.inl rfl)
  | taskResult dest msg =>
      rw [sendOne] at h
      split at h
      · exact (List.not_mem_nil h).elim
      · rename_i k _
        rw [send_msg h]
        exact Or.inr (Or.inr ⟨dest, rfl⟩)
  | localResult msg => exact (List.not_mem_nil h).elim

theorem mem_transmitEach {P : Primitives} {env : Output → NodeEnv} {M : MembershipLayer}
    {L : TaskLedger} {outs : List Output} {sent : Send}
    (h : sent ∈ transmitEach P env M L outs) : ∃ o ∈ outs, Becomes P (env o) L o sent.msg := by
  induction outs with
  | nil => exact (List.not_mem_nil h).elim
  | cons o outs ih =>
      rw [transmitEach] at h
      rcases List.mem_append.mp h with h | h
      · exact ⟨o, List.mem_cons_self .., mem_sendOne h⟩
      · cases hsent : (sendOne P (env o) M L o).2 with
        | true =>
            rw [hsent] at h
            rcases ih h with ⟨o', ho', hb⟩
            exact ⟨o', List.mem_cons_of_mem _ ho', hb⟩
        | false =>
            rw [hsent] at h
            exact (List.not_mem_nil h).elim

/-- What a call hands out besides records is a result message. -/
def Reports (o : Output) : Prop :=
  (∃ t, o = .gossip t) ∨ ∃ msg, get msg (lit "type") = .str (lit "task_result") ∧
    (o = .localResult msg ∨ ∃ dest, o = .taskResult dest msg)

theorem reports_nil : ∀ o ∈ ([] : List Output), Reports o := fun _ ho => (List.not_mem_nil ho).elim

theorem reports_gossip (t : Task) : ∀ o ∈ [Output.gossip t], Reports o := fun _ ho =>
  Or.inl ⟨t, List.mem_singleton.mp ho⟩

theorem reports_of_idle {L : TaskLedger} {o : Outcome Bool} (h : L.Idle o) :
    ∀ x ∈ o.out, Reports x := by
  rw [h.out]
  exact reports_nil

theorem reports_of_wrote {L : TaskLedger} {o : Outcome Bool} {taskId : PyStr} {old new : Task}
    (hw : L.Wrote o taskId old new) (hopen : new.status ≠ .completed) : ∀ x ∈ o.out, Reports x :=
  fun x hx => Or.inl ⟨new, hw.gossips hopen x hx⟩

theorem notifySubmitter_out (L : TaskLedger) (uuid : PyStr) (t : Task) :
    ∀ o ∈ L.notifySubmitter uuid t, Reports o := by
  unfold notifySubmitter
  dsimp only
  split
  · exact reports_nil
  · split
    · exact fun o ho => Or.inr ⟨_, rfl, Or.inl (List.mem_singleton.mp ho)⟩
    · exact fun o ho => Or.inr ⟨_, rfl, Or.inr ⟨_, List.mem_singleton.mp ho⟩⟩

theorem bumpAll_reports (L : TaskLedger) (assign : Task → Task) :
    ∀ o ∈ (L.bumpAll assign).out, Reports o := by
  intro o ho
  rcases L.bumpAll_out assign o ho with ⟨_, _, t, hot, _⟩
  exact Or.inl ⟨t, hot⟩

/-- A call gossips records and reports results, and nothing else. -/
theorem run_out (P : Primitives) (L : TaskLedger) (c : Call) : ∀ o ∈ (c.run P L).2, Reports o := by
  cases c with
  | submitTask env taskId payload shardId submitterKey => exact reports_gossip _
  | claimTask taskId now =>
      rcases L.claimTask_cases taskId now with hidle | ⟨_, _, hw, _, hprogress, _⟩
      · exact reports_of_idle hidle
      · refine reports_of_wrote hw ?_
        rw [hprogress]
        exact fun hc => absurd hc (by simp only [reduceCtorEq, not_false_eq_true])
  | renewLease taskId now =>
      rcases L.renewLease_cases taskId now with hidle | ⟨_, _, hw, hmine, hstatus, _⟩
      · exact reports_of_idle hidle
      · refine reports_of_wrote hw ?_
        rw [hstatus]
        exact not_completed_of_isMine hmine
  -- Only a completion reports, after its gossip.
  | completeTask taskId result now uuid =>
      simp only [Call.run, Outcome.effect]
      unfold completeTask
      split
      · exact reports_nil
      · split
        · exact reports_nil
        · dsimp only
          split
          · exact reports_nil
          · split
            · exact reports_nil
            · intro o ho
              rcases List.mem_cons.mp ho with hgossip | hreport
              · exact Or.inl ⟨_, hgossip⟩
              · exact notifySubmitter_out L uuid _ o hreport
  | releaseLease taskId =>
      rcases L.releaseLease_cases taskId with ⟨hidle, _⟩ | ⟨_, _, hw, _, hpending, _⟩
      · exact reports_of_idle hidle
      · refine reports_of_wrote hw ?_
        rw [hpending]
        exact fun hc => absurd hc (by simp only [reduceCtorEq, not_false_eq_true])
  | releaseAllLeases => exact bumpAll_reports L _
  | recoverIdentity now => exact bumpAll_reports L _

end WhisperNet
