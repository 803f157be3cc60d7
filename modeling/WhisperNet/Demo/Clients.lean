import WhisperNet.Cluster.Delivery

/-!
# Clients

What the demo clients make of the results a node hands them. `submit_p2p` sends one
task per shard over the mesh, with the key of its node as the sender, and fills a
table by shard from the results of its node. `multi_client` submits over HTTP, and
looks through the results of the same node for its task.

The first one shows for each shard a text that its own task for this shard was
completed with, and no result it is handed makes it fail. The second one waits for
a result that no node has: a submission over HTTP names no submitter, so every one
of its clients reports a timeout.

A request takes all results of a node, so a client sees some of them only. It is
given any part of what the node answers.

## Main definitions

* `taskSubmit`: The message of `submit_p2p` for one shard.
* `collect`: Its table, after some results.
* `submitAndWait`: One client of `multi_client`.

## Theorems

* `readSubmission_taskSubmit`: A node reads what the client has sent.
* `collected_genuine`: The table holds results of the client's own tasks.
* `http_clients_time_out`: No client of `multi_client` gets a result.
-/

namespace WhisperNet

open TaskLedger WhisperNode
open PyVal (get getD)

/-! ## The clients -/

/-- The message that `submit_p2p` sends for one shard. -/
def taskSubmit (ourKey msgId taskId query : PyStr) (shardId : Int) : Msg :=
  [(lit "type", .str (lit "task_submit")),
   (lit "msg_id", .str msgId),
   (lit "from", .str ourKey),
   (lit "task_id", .str taskId),
   (lit "payload", .str (lit "query: " ++ query)),
   (lit "shard_id", .int shardId)]

/-- One result in the loop of `submit_p2p`. -/
def collectOne (taskIds : List PyStr) (done : Dict Int PyVal) (r : Msg) :
    Except PyErr (Dict Int PyVal) := do
  let k ← hashKey (get r (lit "task_id"))
  if k ∈ taskIds.map Key.str then
    let sid ← pyInt (getD r (lit "shard_id") (.int 0))
    if (done.get? sid).isSome then pure done
    else pure (done.set sid (getD r (lit "result") (.str [])))
  else pure done

/-- The table of `submit_p2p` after the results it was handed. -/
def collect (taskIds : List PyStr) (results : List Msg) : Except PyErr (Dict Int PyVal) :=
  results.foldlM (collectOne taskIds) Dict.empty

/-- What `_submit_and_wait` leaves in its slot. -/
inductive ClientOutcome
  | submitFailed
  | completed (result : PyVal)
  | timeout
  deriving DecidableEq

/-- `res.get("result") or ""`. -/
def resultOrEmpty (r : Msg) : PyVal :=
  let v := get r (lit "result")
  if v.truthy then v else .str []

/-- `_submit_and_wait`, with the answer to the submission and to each poll before
    the deadline, `none` being an exception. -/
def submitAndWait (taskId : PyStr) (submitted : Option Nat) (polls : List (Option (List Msg))) :
    ClientOutcome :=
  if submitted ≠ some 200 then .submitFailed
  else match (polls.filterMap id).flatten.find? (fun r =>
      pyEq (get r (lit "task_id")) (.str taskId)) with
    | some r => .completed (resultOrEmpty r)
    | none => .timeout

/-- A node reads from the message of `submit_p2p` what the client has sent. -/
theorem readSubmission_taskSubmit {ourKey : PyStr} (hkey : ourKey ≠ [])
    (msgId taskId query : PyStr) (shardId : Int) :
    readSubmission (taskSubmit ourKey msgId taskId query shardId) =
      .ok (.str taskId, .str (lit "query: " ++ query), shardId, .str ourKey) := by
  have htruthy : (PyVal.str ourKey).truthy = true := decide_eq_true hkey
  change Except.ok (PyVal.str taskId, PyVal.str (lit "query: " ++ query), shardId,
    if (PyVal.str ourKey).truthy then PyVal.str ourKey else PyVal.none) = _
  rw [if_pos htruthy]

/-! ## The table -/

/-- A result that the loop of `submit_p2p` can read. -/
structure ReadableResult (r : Msg) : Prop where
  taskId : ∃ k, hashKey (get r (lit "task_id")) = .ok k
  shardId : ∃ n, get r (lit "shard_id") = .int n
  result : ∃ v, get r (lit "result") = .str v

/-- The result is for one of the tasks, and for this shard. -/
def For (taskIds : List PyStr) (r : Msg) (taskId : PyStr) (sid : Int) : Prop :=
  taskId ∈ taskIds ∧ hashKey (get r (lit "task_id")) = .ok (.str taskId) ∧
    get r (lit "shard_id") = .int sid

theorem getD_of_get {m : Msg} {field : PyStr} {v : PyVal} (h : get m field = v) (hv : v ≠ .none)
    (d : PyVal) : getD m field d = v := by
  unfold PyVal.get at h
  unfold PyVal.getD
  cases hl : lookup field m with
  | none =>
      rw [hl] at h
      exact absurd h.symm hv
  | some w =>
      rw [hl] at h
      exact h

/-- One readable result fills the place of its shard, if it is for a task and the
    place is empty. -/
theorem collectOne_readable (taskIds : List PyStr) (done : Dict Int PyVal) {r : Msg}
    (h : ReadableResult r) : collectOne taskIds done r = .ok done ∧
        (∀ taskId sid, For taskIds r taskId sid → done.get? sid ≠ none) ∨
      ∃ taskId sid, For taskIds r taskId sid ∧ done.get? sid = none ∧
        collectOne taskIds done r = .ok (done.set sid (get r (lit "result"))) := by
  rcases h with ⟨⟨k, hk⟩, ⟨n, hn⟩, ⟨v, hv⟩⟩
  have hshard : getD r (lit "shard_id") (.int 0) = .int n := getD_of_get hn (fun h => by cases h) _
  have hresult : getD r (lit "result") (.str []) = get r (lit "result") :=
    getD_of_get rfl (by rw [hv]; exact fun h => by cases h) _
  unfold collectOne
  rw [hk, hshard, hresult]
  by_cases hk' : k ∈ taskIds.map Key.str
  · rcases List.mem_map.mp hk' with ⟨taskId, hmem, rfl⟩
    have hfor : For taskIds r taskId n := ⟨hmem, hk, hn⟩
    cases hd : done.get? n with
    | some w =>
        left
        refine ⟨?_, fun taskId' sid hfor' => ?_⟩
        · change (if Key.str taskId ∈ taskIds.map Key.str then
            (if (done.get? n).isSome then Except.ok done else _) else _) = _
          rw [if_pos hk', hd]
          rfl
        · rw [← PyVal.int.inj (hn.symm.trans hfor'.2.2), hd]
          exact fun h => by cases h
    | none =>
        right
        refine ⟨taskId, n, hfor, hd, ?_⟩
        change (if Key.str taskId ∈ taskIds.map Key.str then
          (if (done.get? n).isSome then _ else Except.ok (done.set n _)) else _) = _
        rw [if_pos hk', hd]
        rfl
  · left
    refine ⟨?_, fun taskId sid hfor => ?_⟩
    · change (if k ∈ taskIds.map Key.str then _ else Except.ok done) = _
      rw [if_neg hk']
    · have hkey := hfor.2.1
      rw [hk, Except.ok.injEq] at hkey
      rw [hkey] at hk'
      exact absurd (List.mem_map.mpr ⟨taskId, hfor.1, rfl⟩) hk'

/-- What the table of `submit_p2p` holds after some readable results. -/
theorem collectAll_readable (taskIds : List PyStr) (rs : List Msg)
    (hrs : ∀ r ∈ rs, ReadableResult r) (done : Dict Int PyVal) :
    ∃ done', rs.foldlM (collectOne taskIds) done = .ok done' ∧
      (∀ sid v, done'.get? sid = some v → done.get? sid = some v ∨
        ∃ r ∈ rs, ∃ taskId, For taskIds r taskId sid ∧ v = get r (lit "result")) ∧
      (∀ sid, done.get? sid ≠ none → done'.get? sid ≠ none) ∧
      ∀ r ∈ rs, ∀ taskId sid, For taskIds r taskId sid → done'.get? sid ≠ none := by
  induction rs generalizing done with
  | nil =>
      exact ⟨done, rfl, fun _ _ h => Or.inl h, fun _ h => h,
        fun r hr => (List.not_mem_nil hr).elim⟩
  | cons r rs ih =>
      have hrest := ih (fun r' hr' => hrs r' (List.mem_cons_of_mem _ hr'))
      rcases collectOne_readable taskIds done (hrs r (List.mem_cons_self ..)) with
        ⟨hone, hfilled⟩ | ⟨taskId, sid, hfor, hnone, hone⟩
      · rcases hrest done with ⟨done', hfold, hfrom, hkept, hall⟩
        refine ⟨done', ?_, fun sid v hv => ?_, hkept, fun r' hr' taskId sid hfor => ?_⟩
        · rw [List.foldlM_cons, hone]
          exact hfold
        · rcases hfrom sid v hv with hold | ⟨r', hr', hnew⟩
          · exact Or.inl hold
          · exact Or.inr ⟨r', List.mem_cons_of_mem _ hr', hnew⟩
        · rcases List.mem_cons.mp hr' with rfl | htail
          · exact hkept sid (hfilled taskId sid hfor)
          · exact hall r' htail taskId sid hfor
      · rcases hrest (done.set sid (get r (lit "result"))) with ⟨done', hfold, hfrom, hkept, hall⟩
        refine ⟨done', ?_, fun sid' v hv => ?_, fun sid' hsid' => hkept sid' ?_,
          fun r' hr' taskId' sid' hfor' => ?_⟩
        · rw [List.foldlM_cons, hone]
          exact hfold
        · rcases hfrom sid' v hv with hold | ⟨r', hr', hnew⟩
          · rw [Dict.get?_set] at hold
            by_cases hs : sid' = sid
            -- The place that this result has filled.
            · rw [if_pos hs, Option.some.injEq] at hold
              rw [hs, ← hold]
              exact Or.inr ⟨r, List.mem_cons_self .., taskId, hfor, rfl⟩
            · rw [if_neg hs] at hold
              exact Or.inl hold
          · exact Or.inr ⟨r', List.mem_cons_of_mem _ hr', hnew⟩
        · rw [Dict.get?_set]
          by_cases hs : sid' = sid
          · rw [if_pos hs]
            exact fun h => by cases h
          · rw [if_neg hs]
            exact hsid'
        · rcases List.mem_cons.mp hr' with rfl | htail
          · have hsid : sid' = sid := PyVal.int.inj (hfor'.2.2.symm.trans hfor.2.2)
            refine hkept sid' ?_
            rw [hsid, Dict.get?_set_self]
            exact fun h => by cases h
          · exact hall r' htail taskId' sid' hfor'

/-! ## The results of a node -/

namespace Fabric

variable {ι : Type}

/-- The brief of a submission has an id that can be a key, and a number for a shard. -/
theorem created_usable {P : Primitives} {u : Fabric ι} {e : FabricEvent ι} {b : Brief}
    (hb : b ∈ u.created P e) : (∃ k, hashKey b.taskId = .ok k) ∧ ∃ n, b.shardId = .int n := by
  cases e with
  | call i c env =>
      rcases List.mem_map.mp hb with ⟨t, ht, rfl⟩
      cases c with
      | submitTask submitEnv taskId payload shardId submitterKey =>
          rw [List.mem_singleton.mp ht]
          exact ⟨⟨.str taskId, rfl⟩, ⟨shardId, rfl⟩⟩
      | _ => exact (List.not_mem_nil ht).elim
  | deliver i n env fromPeer =>
      simp only [created] at hb
      split at hb
      · rcases List.mem_map.mp hb with ⟨t, ht, rfl⟩
        unfold takes at ht
        split at ht
        · split at ht
          · rename_i outcome hsub
            unfold submission at hsub
            split at hsub
            · cases hsub
            · split at hsub
              · cases hsub
              · rw [← Option.some.inj hsub] at ht
                unfold TaskLedger.submitRaw at ht
                -- An id that cannot be a key raises before anything is gossiped.
                split at ht
                · exact (List.not_mem_nil ht).elim
                · rename_i k hk
                  rw [List.mem_singleton.mp ht]
                  rcases submittedRaw_names (u.nodes i).ledger P _ _ _ _ _ with ⟨hid, hshard, _⟩
                  exact ⟨⟨k, by rw [← hk]; exact congrArg hashKey hid⟩, ⟨_, hshard⟩⟩
          · exact (List.not_mem_nil ht).elim
        · exact (List.not_mem_nil ht).elim
      · exact (List.not_mem_nil hb).elim
  | _ => exact (List.not_mem_nil hb).elim

variable [DecidableEq ι]

/-- What a node answers has entered its buffer before. -/
theorem answered_arrives {P : Primitives} {s t : Fabric ι} {es : List (FabricEvent ι)}
    (hrun : Machine.run (serve P) s es = some t) {i : ι} (hnew : (s.nodes i).taskResults = [])
    {r : Msg} (hr : r ∈ Machine.emitted (serve P) (answered i) s es) :
    r ∈ Machine.emitted (serve P) (arrivals P i) s es := by
  rw [← (results_once hrun i hnew).1]
  refine List.mem_append_left _ (Machine.mem_emitted.mpr ?_)
  rcases Machine.mem_emitted.mp hr with ⟨es₁, e, es₂, u, u', hes, hu, hstep, hin⟩
  exact ⟨es₁, e, es₂, u, u', hes, hu, hstep, List.mem_append_left _ hin⟩

/-- From the results that a client is handed by its node, in any honest run, the table of
    `submit_p2p` is filled without an exception. What it shows for a shard is a text
    that some node completed the client's own task for this shard with, and a task
    that any of the results is about has its place filled. It takes that nobody else
    uses the ids of the client. -/
theorem collected_genuine {P : Primitives} {key : ι → PyStr} {s t : Fabric ι}
    {es : List (FabricEvent ι)} (hopen : Opening key s)
    (hhonest : Machine.Along (serve P) Honest s es) (hrun : Machine.run (serve P) s es = some t)
    (i : ι) (tasks : List (Int × PyStr))
    (hown : ∀ b ∈ Machine.emitted (serve P) (created P) s es, ∀ task ∈ tasks,
      b.taskId = .str task.2 → b.shardId = .int task.1)
    (rs : List Msg) (hrs : ∀ r ∈ rs, r ∈ Machine.emitted (serve P) (answered i) s es) :
    ∃ done, collect (tasks.map Prod.snd) rs = .ok done ∧
      (∀ sid v, done.get? sid = some v → ∃ taskId, (sid, taskId) ∈ tasks ∧
        ∃ j result now uuid env, .call j (.completeTask taskId result now uuid) env ∈ es ∧
          v = .str result) ∧
      ∀ r ∈ rs, ∀ task ∈ tasks, get r (lit "task_id") = .str task.2 →
        done.get? task.1 ≠ none := by
  have hgenuine : ∀ r ∈ rs, ∃ b ∈ Machine.emitted (serve P) (created P) s es,
      ∃ j taskId result now uuid env, .call j (.completeTask taskId result now uuid) env ∈ es ∧
        (∀ x, b.taskId = .str x → taskId = x) ∧ ResultOf b (key j) result now r := by
    intro r hr
    rcases (results_genuine hopen hhonest i).1 r
      (answered_arrives hrun (hopen.empty i) (hrs r hr)) with ⟨b, hb, _, hrest⟩
    exact ⟨b, hb, hrest⟩
  have husable : ∀ b ∈ Machine.emitted (serve P) (created P) s es,
      (∃ k, hashKey b.taskId = .ok k) ∧ ∃ n, b.shardId = .int n := by
    intro b hb
    rcases Machine.mem_emitted.mp hb with ⟨_, e, _, u, _, _, _, _, hin⟩
    exact created_usable hin
  have hread : ∀ r ∈ rs, ReadableResult r := by
    intro r hr
    rcases hgenuine r hr with ⟨b, hb, j, taskId, result, now, uuid, env, _, _, hof⟩
    rcases husable b hb with ⟨⟨k, hk⟩, ⟨n, hn⟩⟩
    exact ⟨⟨k, by rw [hof.taskId, hk]⟩, ⟨n, hof.shardId.trans hn⟩, ⟨result, hof.result⟩⟩
  rcases collectAll_readable (tasks.map Prod.snd) rs hread Dict.empty with
    ⟨done, hfold, hfrom, _, hall⟩
  refine ⟨done, hfold, fun sid v hv => ?_, fun r hr task htask hid => ?_⟩
  · rcases hfrom sid v hv with hold | ⟨r, hr, taskId, ⟨hmem, hkey, hshard⟩, hval⟩
    · rw [Dict.get?_empty] at hold
      cases hold
    · rcases List.mem_map.mp hmem with ⟨task, htask, rfl⟩
      rcases hgenuine r hr with ⟨b, hb, j, taskId, result, now, uuid, env, hcall, hsame, hof⟩
      rw [hof.taskId, hashKey_eq_str] at hkey
      -- The client's task of this id is the one for this shard.
      have hsid : sid = task.1 := PyVal.int.inj
        ((hshard.symm.trans hof.shardId).trans (hown b hb task htask hkey))
      rw [hsame _ hkey] at hcall
      exact ⟨task.2, by rw [hsid]; exact htask, j, result, now, uuid, env, hcall,
        hval.trans hof.result⟩
  · rcases hgenuine r hr with ⟨b, hb, j, taskId, result, now, uuid, env, _, _, hof⟩
    rw [hof.taskId] at hid
    refine hall r hr task.2 task.1 ⟨List.mem_map.mpr ⟨task, htask, rfl⟩, ?_, ?_⟩
    · rw [hof.taskId, hid]
      rfl
    · rw [hof.shardId]
      exact hown b hb task htask hid

/-- A client of `multi_client` whose task was submitted over HTTP, once and with an id of
    its own, never gets a result, from whichever node and however often it asks. -/
theorem http_clients_time_out {P : Primitives} {key : ι → PyStr} {s t : Fabric ι}
    {es : List (FabricEvent ι)} (hopen : Opening key s)
    (hhonest : Machine.Along (serve P) Honest s es) (hrun : Machine.run (serve P) s es = some t)
    (hnodup : ((Machine.emitted (serve P) (created P) s es).map Brief.taskId).Nodup) {j : ι}
    {submitEnv : TaskLedger.SubmitEnv} {taskId payload : PyStr} {shardId : Int}
    {env : Output → NodeEnv}
    (hsubmit : .call j (.submitTask submitEnv taskId payload shardId .none) env ∈ es) (i : ι)
    (polls : List (Option (List Msg))) (hpolls : ∀ rs, some rs ∈ polls → ∀ r ∈ rs,
      r ∈ Machine.emitted (serve P) (answered i) s es) :
    submitAndWait taskId (some 200) polls = .timeout := by
  have hmade : ∃ u u' : Fabric ι, u.serve P _ = some u' ∧
      u.created P _ ⊆ Machine.emitted (serve P) (created P) s es :=
    Machine.exists_emitted hrun hsubmit
  rcases hmade with ⟨u, _, _, hsub⟩
  have hb := hsub (List.mem_singleton.mpr rfl : _ ∈ u.created P _)
  have hnone : (polls.filterMap id).flatten.find? (fun r =>
      pyEq (get r (lit "task_id")) (.str taskId)) = none := by
    refine List.find?_eq_none.mpr (fun r hr hmatch => ?_)
    rcases List.mem_flatten.mp hr with ⟨rs, hrs, hin⟩
    rcases List.mem_filterMap.mp hrs with ⟨poll, hpoll, rfl⟩
    have harrived := answered_arrives hrun (hopen.empty i) (hpolls rs hpoll r hin)
    -- The submission named no node, so no node has a result of it.
    exact (results_genuine hopen hhonest i).2 hnodup _ hb (fun h => by cases h) r harrived
      ((pyEq_str _ _).mp hmatch)
  unfold submitAndWait
  rw [if_neg (not_not.mpr rfl), hnone]

end Fabric

namespace Late

attribute [local instance] Flood.neZero_two

open Fabric

/-- The client at node `b` shows a text for the one shard it has sent a task for. -/
theorem served_collected :
    ∃ done, collect [lit "t"] (Machine.emitted (serve reference) (answered 1) fabric served) =
        .ok done ∧
      ∀ sid v, done.get? sid = some v → ∃ taskId, (sid, taskId) ∈ [((1 : Int), lit "t")] ∧
        ∃ j result now uuid env, .call j (.completeTask taskId result now uuid) env ∈ served ∧
          v = .str result := by
  have hrun : (Machine.run (serve reference) fabric served).isSome = true := by decide +kernel
  rcases Option.isSome_iff_exists.mp hrun with ⟨t, ht⟩
  rcases collected_genuine fabric_opening (by decide +kernel) ht 1 [((1 : Int), lit "t")]
    (by decide +kernel) _ (fun r hr => hr) with ⟨done, hfold, hfrom, _⟩
  exact ⟨done, hfold, hfrom⟩

/-- Node `a` takes a task over HTTP, completes it, and is asked for results. -/
def overHttp : List (FabricEvent (Fin 2)) :=
  [.start 0 0 env,
    .call 0 (.submitTask SubmitEnv.plain (lit "t") (lit "p") 1 .none) (named (lit "1")),
    .call 0 (.claimTask (lit "t") 1) (named (lit "2")),
    .call 0 (.completeTask (lit "t") (lit "done") 2 (lit "u")) (named (lit "3")),
    .work 0 .drainResults]

/-- The client that has submitted the task is answered, and gets no result. -/
theorem overHttp_times_out : (Machine.run (serve reference) fabric overHttp).isSome = true ∧
    submitAndWait (lit "t") (some 200)
      [some (Machine.emitted (serve reference) (answered 0) fabric overHttp)] = .timeout := by
  have hrun : (Machine.run (serve reference) fabric overHttp).isSome = true := by decide +kernel
  refine ⟨hrun, ?_⟩
  rcases Option.isSome_iff_exists.mp hrun with ⟨t, ht⟩
  refine http_clients_time_out fabric_opening (by decide +kernel) ht (by decide +kernel)
    (List.mem_cons_of_mem _ (List.mem_cons_self ..)) 0 _ (fun rs hrs r hr => ?_)
  rw [Option.some.inj (List.mem_singleton.mp hrs)] at hr
  exact hr

end Late

end WhisperNet
