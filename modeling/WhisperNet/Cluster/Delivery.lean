import WhisperNet.Cluster.Provenance
import WhisperNet.Runtime.Reports

/-!
# Delivery of Results

What a client of a node gets from `GET /results`. A node that completes a task
makes one result for the submitter the record names, and hands it to the
transport or, if it is the submitter, puts it into its own buffer. The receive
loop of the submitter puts results that arrive there, and a request takes all of
them.

So a result in the buffer of a node is about a task that was submitted in the
name of that node, and its text is what the task was completed with, however the
record travelled in between. A task submitted over HTTP names no submitter and
gets no result at any node. What is in the buffer is handed out once and in
order, to whichever client asks next, and what a restart finds in it is lost.

## Main definitions

* `Fabric.serve`: The steps of the cluster, with the results a node keeps.
* `Fabric.arrivals`, `Fabric.answered`, `Fabric.lost`: What enters and leaves the
  buffer of a node.
* `Fabric.reports`: The results an event makes.
* `Fabric.Wired`: Both layers of a node have its key.
* `Fabric.Honest`: No client makes up an update or a result.
* `Fabric.Addressed`: Results are on their way to their submitter, or are there.

## Theorems

* `Fabric.results_once`: Results are handed out once and in order.
* `Fabric.results_genuine`: A result is about a task submitted for this node.
-/

namespace WhisperNet

open MembershipLayer TaskLedger WhisperNode WhisperNet.Action
open PyVal (get)

namespace WhisperNode

/-- The receive loop leaves the node its keys. -/
theorem receive_keys (P : Primitives) (s : WhisperNode) (env : NodeEnv) (fromPeer : PyVal)
    (msg : Msg) : (s.receive P env fromPeer msg).1.membership.ourKey = s.membership.ourKey ∧
      (s.receive P env fromPeer msg).1.ledger.ourKey = s.ledger.ourKey := by
  by_cases hmember : isMembership msg = true
  · rw [receive_member P s env fromPeer hmember]
    have hwithin : Within (memberFrame s.membership.ourKey (fun _ => True) (ByMessage msg))
        (handleMessage env.member fromPeer msg) :=
      handleMessage_within env.member fromPeer msg (fun _ _ => trivial)
    exact ⟨ourKey_of_changes ((hwithin s.membership).1 rfl), rfl⟩
  · by_cases hupdate : get msg (lit "type") = .str (lit "ledger_update")
    · refine ⟨?_, ?_⟩
      · unfold receive
        rw [if_neg hmember, hupdate, if_pos (by decide)]
      · rw [receive_update P s env fromPeer hupdate]
        exact (update_identity P s.ledger msg).1
    · by_cases hask : get msg (lit "type") = .str (lit "task_submit") ∨
          get msg (lit "type") = .str (lit "task_award")
      · rcases receive_asks P s env fromPeer hask with ⟨_, hrun⟩ | ⟨e, hsome, hrun⟩
        · rw [hrun]
          exact ⟨rfl, rfl⟩
        · rw [hrun]
          exact ⟨rfl, request_key hsome⟩
      · rw [not_or] at hask
        refine ⟨?_, by rw [receive_other P s env fromPeer hupdate hask.1 hask.2]⟩
        have hne : ∀ {name}, get msg (lit "type") ≠ .str name →
            ¬ pyEq (get msg (lit "type")) (.str name) = true := fun h hc => h ((pyEq_str _ _).mp hc)
        unfold receive
        simp only [if_neg hmember, if_neg (hne hupdate), if_neg (hne hask.1), if_neg (hne hask.2)]
        split
        · rw [(bidRequest_frame s env).2]
        · split
          · rw [(bid_frame s).2]
          · split
            · rw [(result_frame s).2]
            · split
              · rfl
              · split
                · rfl
                · rfl
where
  /-- A submission or a claim keeps the key of the ledger. -/
  request_key {e : TaskLedger × List Output} (h : s.request P env msg = some e) :
      e.1.ourKey = s.ledger.ourKey := by
    unfold request at h
    by_cases hsubmit : get msg (lit "type") = .str (lit "task_submit")
    · rw [if_pos hsubmit] at h
      rcases Option.map_eq_some_iff.mp h with ⟨o, ho, rfl⟩
      unfold submission at ho
      split at ho
      · cases ho
      · split at ho
        · cases ho
        · rw [← Option.some.inj ho]
          simp only [Outcome.effect, submitRaw]
          split
          · rfl
          · rfl
    · rw [if_neg hsubmit] at h
      split at h
      · split at h
        · split at h
          · cases h
          · rw [← Option.some.inj h]
            exact (run_identity P s.ledger _).1
        · cases h
      · cases h

end WhisperNode

namespace Fabric

variable {ι : Type}

/-- `_buffer_result` of some results. -/
def buffer [DecidableEq ι] (s : Fabric ι) (i : ι) (results : List Msg) : Fabric ι :=
  { s with
    nodes := Function.update s.nodes i { s.nodes i with
      taskResults := (s.nodes i).taskResults ++ results } }

/-- The results an event makes, each with the key it is for. -/
def reports (P : Primitives) (s : Fabric ι) : FabricEvent ι → List (PyVal × Msg)
  | .call i c _ => notices (s.nodes i).ledger.ourKey (c.run P (s.nodes i).ledger).2
  | _ => []

/-- Both layers of a node have its key. -/
structure Wired (key : ι → PyStr) (s : Fabric ι) : Prop where
  member : ∀ i, (s.nodes i).membership.ourKey = key i
  ledger : ∀ i, (s.nodes i).ledger.ourKey = key i

/-- No client makes up an update or a result. -/
def Honest (s : Fabric ι) : FabricEvent ι → Prop
  | .post o => s.Candid (.post o) ∧ ¬ IsResult o.msg
  | _ => True

instance (s : Fabric ι) (e : FabricEvent ι) : Decidable (s.Honest e) :=
  match e with
  | .post o => inferInstanceAs (Decidable (s.Candid (.post o) ∧ ¬ IsResult o.msg))
  | .deliver _ _ _ _ | .call _ _ _ | .beat _ _ | .work _ _ | .lose _ | .stop _ | .start _ _ _ =>
    isTrue trivial

theorem Honest.candid {s : Fabric ι} {e : FabricEvent ι} (h : s.Honest e) : s.Candid e := by
  cases e with
  | post o => exact h.1
  | _ => exact trivial

/-- Every result on its way, or in a buffer, was made for the key it goes to. -/
structure Addressed (key : ι → PyStr) (s : Fabric ι) (made : List (PyVal × Msg)) : Prop where
  wired : Wired key s
  flight : ∀ o ∈ s.flight, IsResult o.msg →
    ∃ dest, hashKey dest = .ok o.dest ∧ (dest, o.msg) ∈ made
  held : ∀ i, ∀ m ∈ (s.nodes i).taskResults, (.str (key i), m) ∈ made

variable [DecidableEq ι]

/-- The steps of the cluster, with the results that a call leaves in the buffer
    of its own node. -/
def serve (P : Primitives) (s : Fabric ι) : FabricEvent ι → Option (Fabric ι)
  | .call i c env =>
    (s.step P (.call i c env)).map (fun s' => s'.buffer i ((s.nodes i).keeps P c env))
  | e => s.step P e

/-- What an event puts into the buffer of node `i`. -/
def arrivals (P : Primitives) (i : ι) (s : Fabric ι) : FabricEvent ι → List Msg
  | .call j c env => if j = i then (s.nodes j).keeps P c env else []
  | .deliver j n _ _ =>
    if j = i then
      match s.flight[n]? with
      | some o => accepted o.msg
      | none => []
    else []
  | _ => []

/-- What a request for the results of node `i` is answered with. -/
def answered (i : ι) (s : Fabric ι) : FabricEvent ι → List Msg
  | .work j .drainResults => if j = i then (s.nodes i).taskResults else []
  | _ => []

/-- What a restart of node `i` loses. -/
def lost (i : ι) (s : Fabric ι) : FabricEvent ι → List Msg
  | .start j _ _ => if j = i then (s.nodes i).taskResults else []
  | _ => []

/-! ## The buffer -/

omit [DecidableEq ι] in
/-- Work other than a request leaves the buffer alone. -/
theorem work_buffer {P : Primitives} {s s' : WhisperNode} {e : NodeEvent} (hwork : e.isWork = true)
    (h : s.step P e = some s') :
    (e = .drainResults ∧ s'.taskResults = []) ∨
      (e ≠ .drainResults ∧ s'.taskResults = s.taskResults) := by
  cases e with
  | converge =>
      right
      refine ⟨by simp only [ne_eq, reduceCtorEq, not_false_eq_true], ?_⟩
      -- A convergence changes the durations, and only those.
      rw [← Option.some.inj h]
      rcases s.converge_cases with hsame | ⟨_, _, _, hadopts⟩
      · rw [hsame]
      · rw [hadopts]
  | drainResults =>
      left
      rw [← Option.some.inj h]
      exact ⟨rfl, rfl⟩
  | openAuction taskId =>
      right
      rw [← Option.some.inj h]
      exact ⟨by simp only [ne_eq, reduceCtorEq, not_false_eq_true], rfl⟩
  | closeAuction taskId =>
      right
      rw [← Option.some.inj h]
      exact ⟨by simp only [ne_eq, reduceCtorEq, not_false_eq_true], rfl⟩
  | openShares k needed own =>
      right
      rw [← Option.some.inj h]
      exact ⟨by simp only [ne_eq, reduceCtorEq, not_false_eq_true], rfl⟩
  | closeShares k =>
      right
      rw [← Option.some.inj h]
      exact ⟨by simp only [ne_eq, reduceCtorEq, not_false_eq_true], rfl⟩
  | receive env fromPeer msg => cases hwork
  | beat b => cases hwork
  | call c => cases hwork
  | restart now => cases hwork

/-- The node after a step at it, and the others as they were. -/
theorem nodes_perform {s s' : Fabric ι} {i : ι} {node : WhisperNode} {flight : List Send}
    {made : List (PyStr × Task)} {handed : List Task}
    (h : s.perform i node flight made handed = some s') :
    s'.nodes = Function.update s.nodes i node ∧ s'.flight = flight := by
  rcases perform_some h with ⟨_, rfl⟩
  exact ⟨rfl, rfl⟩

/-- A step takes from the front of a buffer, and adds at its end. -/
theorem serve_buffer {P : Primitives} {s s' : Fabric ι} {e : FabricEvent ι} (i : ι)
    (h : s.serve P e = some s') :
    (s.answered i e ++ s.lost i e) ++ (s'.nodes i).taskResults =
      (s.nodes i).taskResults ++ s.arrivals P i e := by
  -- A step at a node other than `i` does not count.
  have hother : ∀ {u u' : Fabric ι} {j : ι} {node : WhisperNode} {flight made handed},
      u.perform j node flight made handed = some u' → j ≠ i → u'.nodes i = u.nodes i := by
    intro u u' j node flight made handed hp hj
    rw [(nodes_perform hp).1, Function.update_of_ne (Ne.symm hj)]
  have hself : ∀ {u u' : Fabric ι} {node : WhisperNode} {flight made handed},
      u.perform i node flight made handed = some u' → u'.nodes i = node := by
    intro u u' node flight made handed hp
    rw [(nodes_perform hp).1, Function.update_self]
  cases e with
  | deliver j n env fromPeer =>
      simp only [serve, step] at h
      simp only [answered, lost, arrivals, List.nil_append]
      cases hn : s.flight[n]? with
      | none =>
          rw [hn] at h
          cases h
      | some o =>
          simp only [hn] at h
          split at h
          · by_cases hj : j = i
            · rw [hj] at h
              rw [if_pos hj, hself h, receive_buffer]
            · rw [if_neg hj, hother h hj, List.append_nil]
          · cases h
  | call j c env =>
      simp only [serve] at h
      rcases Option.map_eq_some_iff.mp h with ⟨u, hu, rfl⟩
      simp only [step] at hu
      simp only [answered, lost, arrivals, List.nil_append, buffer]
      split at hu
      · by_cases hj : j = i
        · rw [hj] at hu ⊢
          rw [if_pos rfl, Function.update_self, hself hu]
        · rw [if_neg hj, Function.update_of_ne (Ne.symm hj), hother hu hj, List.append_nil]
      · cases hu
  | beat j b =>
      simp only [serve, step] at h
      simp only [answered, lost, arrivals, List.nil_append, List.append_nil]
      split at h
      · by_cases hj : j = i
        · rw [hj] at h
          rw [hself h]
        · rw [hother h hj]
      · cases h
  | work j e =>
      simp only [serve, step] at h
      split at h
      · rename_i hrun
        rcases Option.bind_eq_some_iff.mp h with ⟨node, hnode, hperform⟩
        by_cases hj : j = i
        · rw [hj] at hnode hperform ⊢
          rcases work_buffer hrun.2 hnode with ⟨rfl, hnone⟩ | ⟨hne, hsame⟩
          · simp only [answered, lost, arrivals, if_pos, List.append_nil]
            rw [hself hperform, hnone, List.append_nil]
          · have hanswered : s.answered i (.work i e) = [] := by
              cases e with
              | drainResults => exact absurd rfl hne
              | _ => rfl
            rw [hanswered, hself hperform, hsame]
            exact (List.append_nil _).symm
        · have hanswered : s.answered i (.work j e) = [] := by
            cases e with
            | drainResults => exact if_neg hj
            | _ => rfl
          rw [hanswered, hother hperform hj]
          exact (List.append_nil _).symm
      · cases h
  | post o =>
      rw [← Option.some.inj h]
      exact (List.append_nil _).symm
  | lose n =>
      simp only [serve, step] at h
      split at h
      · rw [← Option.some.inj h]
        exact (List.append_nil _).symm
      · cases h
  | stop j =>
      rw [← Option.some.inj h]
      exact (List.append_nil _).symm
  | start j now env =>
      simp only [serve, step] at h
      split at h
      · cases h
      · simp only [answered, lost, arrivals, List.nil_append, List.append_nil]
        by_cases hj : j = i
        · rw [hj] at h
          -- A new process has an empty buffer.
          rw [if_pos hj, hself h]
          exact List.append_nil _
        · rw [if_neg hj, hother h hj]
          exact List.nil_append _

/-- Over any run, the results that enter the buffer of a node are handed out once
    and in order, to whoever asks, up to those that are still in it. Only a
    restart of the node drops any. -/
theorem results_once {P : Primitives} {s t : Fabric ι} {es : List (FabricEvent ι)}
    (hrun : Machine.run (serve P) s es = some t) (i : ι) (hnew : (s.nodes i).taskResults = []) :
    Machine.emitted (serve P) (fun u e => u.answered i e ++ u.lost i e) s es ++
        (t.nodes i).taskResults = Machine.emitted (serve P) (arrivals P i) s es ∧
      ((∀ now env, .start i now env ∉ es) →
        Machine.emitted (serve P) (answered i) s es ++ (t.nodes i).taskResults =
          Machine.emitted (serve P) (arrivals P i) s es) := by
  have h := Machine.buffer_run (serve P) (fun u => (u.nodes i).taskResults) (arrivals P i)
    (fun u e => u.answered i e ++ u.lost i e)
    (fun _ _ _ hstep => serve_buffer i hstep) hrun
  rw [hnew, List.nil_append] at h
  refine ⟨h, fun hkept => ?_⟩
  rw [← h]
  congr 1
  exact Machine.emitted_congr (fun u e he => by
    cases e with
    | start j now env =>
        by_cases hj : j = i
        · rw [hj] at he
          exact absurd he (hkept now env)
        · simp only [answered, lost, if_neg hj, List.append_nil]
    | _ => exact (List.append_nil _).symm) s

/-! ## Where the results come from -/

theorem wired_perform {key : ι → PyStr} {s s' : Fabric ι} {i : ι} {node : WhisperNode}
    {flight : List Send} {made : List (PyStr × Task)} {handed : List Task} (hs : Wired key s)
    (h : s.perform i node flight made handed = some s')
    (hmember : node.membership.ourKey = (s.nodes i).membership.ourKey)
    (hledger : node.ledger.ourKey = (s.nodes i).ledger.ourKey) : Wired key s' := by
  have hnodes := (nodes_perform h).1
  refine ⟨fun j => ?_, fun j => ?_⟩
  · rw [hnodes]
    by_cases hj : j = i
    · rw [hj, Function.update_self, hmember]
      exact hs.member i
    · rw [Function.update_of_ne hj]
      exact hs.member j
  · rw [hnodes]
    by_cases hj : j = i
    · rw [hj, Function.update_self, hledger]
      exact hs.ledger i
    · rw [Function.update_of_ne hj]
      exact hs.ledger j

omit [DecidableEq ι] in
theorem work_keys {P : Primitives} {s s' : WhisperNode} {e : NodeEvent} (hwork : e.isWork = true)
    (h : s.step P e = some s') : s'.membership.ourKey = s.membership.ourKey ∧
      s'.ledger.ourKey = s.ledger.ourKey := by
  cases e with
  | converge =>
      rw [← Option.some.inj h]
      -- The keys are in neither of the records that it rewrites.
      rcases s.converge_cases with hsame | ⟨_, _, _, hadopts⟩
      · rw [hsame]
        exact ⟨rfl, rfl⟩
      · rw [hadopts]
        refine ⟨rfl, ?_⟩
        dsimp only
        unfold TaskLedger.converge
        split
        · rfl
        · rfl
  | drainResults => rw [← Option.some.inj h]; exact ⟨rfl, rfl⟩
  | openAuction taskId => rw [← Option.some.inj h]; exact ⟨rfl, rfl⟩
  | closeAuction taskId => rw [← Option.some.inj h]; exact ⟨rfl, rfl⟩
  | openShares k needed own => rw [← Option.some.inj h]; exact ⟨rfl, rfl⟩
  | closeShares k => rw [← Option.some.inj h]; exact ⟨rfl, rfl⟩
  | receive env fromPeer msg => cases hwork
  | beat b => cases hwork
  | call c => cases hwork
  | restart now => cases hwork

/-- A step at a node that keeps its keys, sends results that were made, and has
    such results in its buffer. -/
theorem perform_addressed {key : ι → PyStr} {s s' : Fabric ι} {i : ι} {node : WhisperNode}
    {flight : List Send} {issued : List (PyStr × Task)} {handed : List Task}
    {made : List (PyVal × Msg)} (hs : Addressed key s made)
    (h : s.perform i node flight issued handed = some s')
    (hkeys : node.membership.ourKey = (s.nodes i).membership.ourKey ∧
      node.ledger.ourKey = (s.nodes i).ledger.ourKey)
    (hflight : ∀ o ∈ flight, IsResult o.msg →
      o ∈ s.flight ∨ ∃ dest, hashKey dest = .ok o.dest ∧ (dest, o.msg) ∈ made)
    (hheld : ∀ m ∈ node.taskResults, (.str (key i), m) ∈ made) : Addressed key s' made := by
  rcases nodes_perform h with ⟨hnodes, hsent⟩
  refine ⟨wired_perform hs.wired h hkeys.1 hkeys.2, fun o ho hresult => ?_, fun j m hm => ?_⟩
  · rw [hsent] at ho
    rcases hflight o ho hresult with hold | hmade
    · exact hs.flight o hold hresult
    · exact hmade
  · rw [hnodes] at hm
    by_cases hj : j = i
    · rw [hj, Function.update_self] at hm
      rw [hj]
      exact hheld m hm
    · rw [Function.update_of_ne hj] at hm
      exact hs.held j m hm

omit [DecidableEq ι] in
theorem Addressed.mono {key : ι → PyStr} {s : Fabric ι} {made made' : List (PyVal × Msg)}
    (h : Addressed key s made) (hsub : made ⊆ made') : Addressed key s made' := by
  refine ⟨h.wired, fun o ho hresult => ?_, fun i m hm => hsub (h.held i m hm)⟩
  rcases h.flight o ho hresult with ⟨dest, hdest, hmem⟩
  exact ⟨dest, hdest, hsub hmem⟩

omit [DecidableEq ι] in
/-- What the receive loop accepts was made for the node. -/
theorem Addressed.accepts {key : ι → PyStr} {s : Fabric ι} {made : List (PyVal × Msg)}
    (hs : Addressed key s made) {i : ι} {o : Send} (ho : o ∈ s.flight)
    (hdest : o.dest = .str (s.nodes i).membership.ourKey) :
    ∀ m ∈ accepted o.msg, (.str (key i), m) ∈ made := by
  intro m hm
  rcases mem_accepted hm with ⟨rfl, hresult⟩
  rcases hs.flight o ho hresult with ⟨dest, hkey, hmade⟩
  rw [hdest, hs.wired.member i, hashKey_eq_str] at hkey
  rw [hkey] at hmade
  exact hmade

/-- What enters a buffer was made for its node. -/
theorem arrivals_made {P : Primitives} {key : ι → PyStr} {s s' : Fabric ι} {e : FabricEvent ι}
    {made : List (PyVal × Msg)} (hs : Addressed key s made) (h : s.serve P e = some s') (i : ι) :
    ∀ m ∈ s.arrivals P i e, (.str (key i), m) ∈ made ++ s.reports P e := by
  intro m hm
  cases e with
  | deliver j n env fromPeer =>
      simp only [arrivals] at hm
      split at hm
      · rename_i hj
        cases hn : s.flight[n]? with
        | none =>
            rw [hn] at hm
            exact (List.not_mem_nil hm).elim
        | some o =>
            simp only [serve, step, hn] at h
            rw [hn] at hm
            split at h
            · rename_i hcan
              rw [hj] at hcan
              exact List.mem_append_left _
                (hs.accepts (List.mem_of_getElem? hn) hcan.2 m hm)
            · cases h
      · exact (List.not_mem_nil hm).elim
  | call j c env =>
      simp only [arrivals] at hm
      split at hm
      · rename_i hj
        -- It is one of the results this call has made.
        refine List.mem_append_right _ (mem_notices.mpr (Or.inr ⟨mem_keptLocal hm, ?_⟩))
        rw [← hj, hs.wired.ledger j]
      · exact (List.not_mem_nil hm).elim
  | beat j b => exact (List.not_mem_nil hm).elim
  | work j e => exact (List.not_mem_nil hm).elim
  | post o => exact (List.not_mem_nil hm).elim
  | lose n => exact (List.not_mem_nil hm).elim
  | stop j => exact (List.not_mem_nil hm).elim
  | start j now env => exact (List.not_mem_nil hm).elim

omit [DecidableEq ι] in
/-- The results that a call sends are made by it. -/
theorem call_sends {P : Primitives} {L : TaskLedger} {c : Call} {env : Output → NodeEnv}
    {M : MembershipLayer} {o : Send}
    (ho : o ∈ transmitEach P env M (c.run P L).1 (c.run P L).2) (hresult : IsResult o.msg) :
    ∃ dest, hashKey dest = .ok o.dest ∧ (dest, o.msg) ∈ notices L.ourKey (c.run P L).2 := by
  rcases transmit_result (run_out P L c) ho hresult with ⟨dest, hdest, hmem⟩
  exact ⟨dest, hdest, mem_notices.mpr (Or.inl hmem)⟩

/-- A step of the cluster, before a call fills the buffer. -/
theorem step_addressed {P : Primitives} {key : ι → PyStr} {s s' : Fabric ι} {e : FabricEvent ι}
    {made : List (PyVal × Msg)} (hs : Addressed key s made) (hhonest : s.Honest e)
    (h : s.step P e = some s') : Addressed key s' (made ++ s.reports P e) := by
  have hold : Addressed key s (made ++ s.reports P e) := hs.mono (List.subset_append_left ..)
  cases e with
  | deliver i n env fromPeer =>
      simp only [step] at h
      cases hn : s.flight[n]? with
      | none =>
          rw [hn] at h
          cases h
      | some o =>
          simp only [hn] at h
          split at h
          · rename_i hcan
            refine perform_addressed hold h (receive_keys P _ env fromPeer o.msg)
              (fun x hx hresult => ?_) (fun m hm => ?_)
            · rcases List.mem_append.mp hx with hx | hx
              · exact Or.inl (List.mem_of_mem_eraseIdx hx)
              · exact absurd hresult (receive_unreported P _ env fromPeer o.msg x hx)
            · rw [receive_buffer] at hm
              rcases List.mem_append.mp hm with hm | hm
              · exact hold.held i m hm
              · exact hold.accepts (List.mem_of_getElem? hn) hcan.2 m hm
          · cases h
  | call i c env =>
      simp only [step] at h
      split at h
      · refine perform_addressed hold h ⟨rfl, (run_identity P _ c).1⟩ (fun x hx hresult => ?_)
          (hold.held i)
        rcases List.mem_append.mp hx with hx | hx
        · exact Or.inl hx
        · right
          rcases call_sends hx hresult with ⟨dest, hdest, hmem⟩
          exact ⟨dest, hdest, List.mem_append_right _ hmem⟩
      · cases h
  | beat i b =>
      simp only [step] at h
      split at h
      · rcases Mesh.beat_within_any (s.nodes i).membership.ourKey b with ⟨A, hwithin, _⟩
        refine perform_addressed hold h
          ⟨ourKey_of_changes ((hwithin (s.nodes i).membership).1 rfl), rfl⟩
          (fun x hx hresult => ?_) (hold.held i)
        rcases List.mem_append.mp hx with hx | hx
        · exact Or.inl hx
        · exact absurd hresult
            (OfMembers.not_result ((beat_ofMembers b (s.nodes i).membership).2 x hx trivial))
      · cases h
  | work i e =>
      simp only [step] at h
      split at h
      · rename_i hrun
        rcases Option.bind_eq_some_iff.mp h with ⟨node, hnode, hperform⟩
        refine perform_addressed hold hperform (work_keys hrun.2 hnode)
          (fun x hx _ => Or.inl hx) (fun m hm => ?_)
        rcases work_buffer hrun.2 hnode with ⟨_, hnone⟩ | ⟨_, hsame⟩
        · rw [hnone] at hm
          exact (List.not_mem_nil hm).elim
        · rw [hsame] at hm
          exact hold.held i m hm
      · cases h
  | post o =>
      rw [← Option.some.inj h]
      refine ⟨⟨hold.wired.member, hold.wired.ledger⟩, fun x hx hresult => ?_, hold.held⟩
      rcases List.mem_append.mp hx with hx | hx
      · exact hold.flight x hx hresult
      · rw [List.mem_singleton.mp hx] at hresult
        exact absurd hresult hhonest.2
  | lose n =>
      simp only [step] at h
      split at h
      · rw [← Option.some.inj h]
        exact ⟨⟨hold.wired.member, hold.wired.ledger⟩,
          fun x hx => hold.flight x (List.mem_of_mem_eraseIdx hx), hold.held⟩
      · cases h
  | stop i =>
      rw [← Option.some.inj h]
      exact ⟨⟨hold.wired.member, hold.wired.ledger⟩, hold.flight, hold.held⟩
  | start i now env =>
      simp only [step] at h
      split at h
      · cases h
      · have hstarted : Addressed key { s with running := Function.update s.running i true }
            (made ++ s.reports P (.start i now env)) :=
          ⟨⟨hold.wired.member, hold.wired.ledger⟩, hold.flight, hold.held⟩
        refine perform_addressed hstarted h ⟨rfl, ?_⟩ (fun x hx hresult => ?_)
          (fun m hm => (List.not_mem_nil hm).elim)
        · exact (run_identity P (s.nodes i).ledger.load (.recoverIdentity now)).1
        · rcases List.mem_append.mp hx with hx | hx
          · exact Or.inl hx
          -- The recovery of leases only gossips.
          · exact absurd hresult (transmit_unreported (run_gossips P (s.nodes i).ledger.load
              (.recoverIdentity now) (fun _ _ _ _ hc => by cases hc)) x hx)

theorem serve_addressed {P : Primitives} {key : ι → PyStr} {s s' : Fabric ι} {e : FabricEvent ι}
    {made : List (PyVal × Msg)} (hs : Addressed key s made) (hhonest : s.Honest e)
    (h : s.serve P e = some s') : Addressed key s' (made ++ s.reports P e) := by
  cases e with
  | call i c env =>
      have harrive := arrivals_made hs h i
      simp only [serve] at h
      rcases Option.map_eq_some_iff.mp h with ⟨u, hu, rfl⟩
      have hstep := step_addressed hs hhonest hu
      refine ⟨⟨fun j => ?_, fun j => ?_⟩, hstep.flight, fun j m hm => ?_⟩
      · unfold buffer
        by_cases hj : j = i
        · simp only [hj, Function.update_self]
          exact hstep.wired.member i
        · simp only [Function.update_of_ne hj]
          exact hstep.wired.member j
      · unfold buffer
        by_cases hj : j = i
        · simp only [hj, Function.update_self]
          exact hstep.wired.ledger i
        · simp only [Function.update_of_ne hj]
          exact hstep.wired.ledger j
      · unfold buffer at hm
        by_cases hj : j = i
        · simp only [hj, Function.update_self] at hm
          rw [hj]
          rcases List.mem_append.mp hm with hm | hm
          · exact hstep.held i m hm
          · exact harrive m (by rw [arrivals, if_pos rfl]; exact hm)
        · simp only [Function.update_of_ne hj] at hm
          exact hstep.held j m hm
  | deliver i n env fromPeer => exact step_addressed hs hhonest h
  | beat i b => exact step_addressed hs hhonest h
  | work i e => exact step_addressed hs hhonest h
  | post o => exact step_addressed hs hhonest h
  | lose n => exact step_addressed hs hhonest h
  | stop i => exact step_addressed hs hhonest h
  | start i now env => exact step_addressed hs hhonest h

/-- The records have the briefs that were submitted here too. -/
theorem serve_descends {P : Primitives} {s s' : Fabric ι} {e : FabricEvent ι}
    {briefs : List Brief} (hs : Descends s briefs) (hcandid : s.Candid e)
    (h : s.serve P e = some s') : Descends s' (briefs ++ s.created P e) := by
  cases e with
  | call i c env =>
      simp only [serve] at h
      rcases Option.map_eq_some_iff.mp h with ⟨u, hu, rfl⟩
      have hstep := step_descends hs hcandid hu
      refine ⟨fun j => ?_, hstep.flight⟩
      unfold buffer
      by_cases hj : j = i
      · simp only [hj, Function.update_self]
        exact hstep.nodes i
      · simp only [Function.update_of_ne hj]
        exact hstep.nodes j
  | deliver i n env fromPeer => exact step_descends hs hcandid h
  | beat i b => exact step_descends hs hcandid h
  | work i e => exact step_descends hs hcandid h
  | post o => exact step_descends hs hcandid h
  | lose n => exact step_descends hs hcandid h
  | stop i => exact step_descends hs hcandid h
  | start i now env => exact step_descends hs hcandid h

/-! ## Runs -/

/-- Nodes without results that have their keys, before anything happened. -/
structure Opening (key : ι → PyStr) (s : Fabric ι) : Prop where
  initial : s.Initial
  wired : Wired key s
  empty : ∀ i, (s.nodes i).taskResults = []

omit [DecidableEq ι] in
theorem addressed_opening {key : ι → PyStr} {s : Fabric ι} (h : Opening key s) :
    Addressed key s [] := by
  refine ⟨h.wired, fun o ho => ?_, fun i m hm => ?_⟩
  · rw [h.initial.flight] at ho
    exact (List.not_mem_nil ho).elim
  · rw [h.empty i] at hm
    exact (List.not_mem_nil hm).elim

theorem serve_run_descends {P : Primitives} {s t : Fabric ι} {es : List (FabricEvent ι)}
    (hinit : s.Initial) (hhonest : Machine.Along (serve P) Honest s es)
    (hrun : Machine.run (serve P) s es = some t) :
    Descends t (Machine.emitted (serve P) (created P) s es) := by
  have h := Machine.invariant_emitted (serve P) (created P) Descends Honest
    (fun _ _ _ _ hs hok hstep => serve_descends hs hok.candid hstep) (descends_initial hinit)
    hhonest hrun
  rw [List.nil_append] at h
  exact h

/-- The result of a task with this brief, completed with this text at this time by
    the node with this key. -/
structure ResultOf (b : Brief) (from_ result : PyStr) (now : ℚ) (msg : Msg) : Prop where
  taskId : get msg (lit "task_id") = b.taskId
  shardId : get msg (lit "shard_id") = b.shardId
  sender : get msg (lit "from") = .str from_
  result : get msg (lit "result") = .str result
  completedAt : get msg (lit "completed_at") = .float now

omit [DecidableEq ι] in
theorem resultOf_notification {L : TaskLedger} {uuid : PyStr} {task : Task} {result : PyStr}
    {now : ℚ} (hresult : task.result = .str result) (hdone : task.completedAt = .float now) :
    ResultOf task.brief L.ourKey result now (L.notification uuid task) :=
  ⟨rfl, rfl, rfl, hresult, hdone⟩

/-- What a call reports is about a task that was submitted before it. -/
theorem reports_run {P : Primitives} {key : ι → PyStr} {s : Fabric ι} {es : List (FabricEvent ι)}
    (hopen : Opening key s) (hhonest : Machine.Along (serve P) Honest s es) {x : PyVal × Msg}
    (hx : x ∈ Machine.emitted (serve P) (reports P) s es) :
    ∃ b ∈ Machine.emitted (serve P) (created P) s es, b.submitterKey = x.1 ∧
      ∃ j taskId result now uuid env, .call j (.completeTask taskId result now uuid) env ∈ es ∧
        (∀ x, b.taskId = .str x → taskId = x) ∧ ResultOf b (key j) result now x.2 := by
  rcases Machine.mem_emitted.mp hx with ⟨es₁, e, es₂, u, u', hes, hu, hstep, hnotice⟩
  cases e with
  | call j c env =>
      rcases run_notices P (u.nodes j).ledger c hnotice with
        ⟨taskId, result, now, uuid, task, rfl, hheld, _, hresult, hdone, hdest, _, hmsg⟩
      rcases run_brief P _ _ hheld with ⟨old, hold, hbrief⟩ | ⟨hsub, _⟩
      -- The record was there before the completion, with the same brief.
      · rw [hes] at hhonest
        have hdescends := serve_run_descends hopen.initial hhonest.of_append hu
        rcases (hdescends.nodes j).held _ old hold with ⟨hbefore, hunder⟩
        refine ⟨task.brief, ?_, hdest, j, taskId, result, now, uuid, env, ?_, fun x hx => ?_, ?_⟩
        · rw [hbrief, hes]
          exact Machine.emitted_subset_append (serve P) (created P) s es₁ _ hbefore
        · rw [hes]
          exact List.mem_append_right _ (List.mem_cons_self ..)
        · rw [hbrief] at hx
          exact Key.str.inj (hunder x hx)
        · have hwired := Machine.invariant_emitted (serve P) (reports P)
            (Addressed key) Honest (fun _ _ _ _ hs hok hst => serve_addressed hs hok hst)
            (addressed_opening hopen) hhonest.of_append hu
          rw [hmsg, ← hwired.wired.ledger j]
          exact resultOf_notification hresult hdone
      · exact (List.not_mem_nil hsub).elim
  | _ => exact (List.not_mem_nil hnotice).elim

/-- What enters a buffer was reported for its node. -/
theorem arrivals_run {P : Primitives} {key : ι → PyStr} {s : Fabric ι} {es : List (FabricEvent ι)}
    (hopen : Opening key s) (hhonest : Machine.Along (serve P) Honest s es) {i : ι} {msg : Msg}
    (hmsg : msg ∈ Machine.emitted (serve P) (arrivals P i) s es) :
    (.str (key i), msg) ∈ Machine.emitted (serve P) (reports P) s es := by
  rcases Machine.mem_emitted.mp hmsg with ⟨es₁, e, es₂, u, u', hes, hu, hstep, hin⟩
  rw [hes] at hhonest ⊢
  have hmade := Machine.invariant_emitted (serve P) (reports P) (Addressed key)
    Honest (fun _ _ _ _ hs hok hst => serve_addressed hs hok hst) (addressed_opening hopen)
    hhonest.of_append hu
  rw [List.nil_append] at hmade
  -- It was made by this event or by one before it.
  have hreport := arrivals_made hmade hstep i msg hin
  rw [← Machine.emitted_concat hu hstep] at hreport
  have hmore := Machine.emitted_subset_append (serve P) (reports P) s (es₁ ++ [e])
    es₂ hreport
  rw [List.append_assoc] at hmore
  exact hmore

/-- In a run where no client makes up an update or a result, each result that enters the buffer
    of a node is about a task submitted in the name of that node, with the text and
    the time some node completed it with. So a task that was submitted once, and
    not in the name of this node, has no result here; one that was submitted over
    HTTP names nobody and has none anywhere. -/
theorem results_genuine {P : Primitives} {key : ι → PyStr} {s : Fabric ι}
    {es : List (FabricEvent ι)} (hopen : Opening key s)
    (hhonest : Machine.Along (serve P) Honest s es) (i : ι) :
    (∀ msg ∈ Machine.emitted (serve P) (arrivals P i) s es,
      ∃ b ∈ Machine.emitted (serve P) (created P) s es, b.submitterKey = .str (key i) ∧
        ∃ j taskId result now uuid env,
          .call j (.completeTask taskId result now uuid) env ∈ es ∧
            (∀ x, b.taskId = .str x → taskId = x) ∧ ResultOf b (key j) result now msg) ∧
    (((Machine.emitted (serve P) (created P) s es).map Brief.taskId).Nodup →
      ∀ b ∈ Machine.emitted (serve P) (created P) s es, b.submitterKey ≠ .str (key i) →
        ∀ msg ∈ Machine.emitted (serve P) (arrivals P i) s es,
          get msg (lit "task_id") ≠ b.taskId) := by
  refine ⟨fun msg hmsg => reports_run hopen hhonest (arrivals_run hopen hhonest hmsg),
    fun hnodup b hb hother msg hmsg hid => ?_⟩
  rcases reports_run hopen hhonest (arrivals_run hopen hhonest hmsg) with
    ⟨b', hb', hours, _, _, _, _, _, _, _, _, hof⟩
  have hsame : b' = b := List.inj_on_of_nodup_map hnodup hb' hb (hof.taskId.symm.trans hid)
  rw [hsame] at hours
  exact hother hours

end Fabric

namespace Late

attribute [local instance] Flood.neZero_two

open Fabric

/-- What a call finds, with this id for its message. -/
def named (uuid : PyStr) (_ : Output) : NodeEnv := { NodeEnv.plain with uuid := uuid }

/-- Node `b` joins, node `a` takes a task in its name and completes it, and the
    result, sent after three updates, arrives and is asked for. -/
def served : List (FabricEvent (Fin 2)) := .start 0 0 env :: joining ++
  [.call 0 (.submitTask SubmitEnv.plain (lit "t") (lit "p") 1 (.str (lit "b"))) (named (lit "1")),
    .call 0 (.claimTask (lit "t") 1) (named (lit "2")),
    .call 0 (.completeTask (lit "t") (lit "done") 2 (lit "u")) (named (lit "3")),
    .deliver 1 3 NodeEnv.plain (.str (lit "a")), .work 1 .drainResults]

theorem fabric_opening : Opening key fabric :=
  ⟨fabric_initial, ⟨fun _ => rfl, fun _ => rfl⟩, fun _ => rfl⟩

/-- The one result of the run is handed out, and nothing stays behind. -/
theorem served_once : ∃ t, Machine.run (serve reference) fabric served = some t ∧
    (Machine.emitted (serve reference) (answered 1) fabric served).length = 1 ∧
    Machine.emitted (serve reference) (fun u e => u.answered 1 e ++ u.lost 1 e) fabric served ++
        (t.nodes 1).taskResults =
      Machine.emitted (serve reference) (arrivals reference 1) fabric served := by
  have hrun : (Machine.run (serve reference) fabric served).isSome = true := by decide +kernel
  rcases Option.isSome_iff_exists.mp hrun with ⟨t, ht⟩
  exact ⟨t, ht, by decide +kernel, (results_once ht 1 rfl).1⟩

/-- It is about a task that node `a` took in the name of node `b`. -/
theorem served_genuine :
    (Machine.emitted (serve reference) (arrivals reference 1) fabric served).length = 1 ∧
    ∀ msg ∈ Machine.emitted (serve reference) (arrivals reference 1) fabric served,
      ∃ b ∈ Machine.emitted (serve reference) (created reference) fabric served,
        b.submitterKey = .str (lit "b") ∧
          ∃ j taskId result now uuid env,
            .call j (.completeTask taskId result now uuid) env ∈ served ∧
              (∀ x, b.taskId = .str x → taskId = x) ∧ ResultOf b (key j) result now msg :=
  ⟨by decide +kernel, (results_genuine fabric_opening (by decide +kernel) 1).1⟩

end Late

end WhisperNet
