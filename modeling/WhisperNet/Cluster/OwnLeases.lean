import WhisperNet.Cluster.Delivery
import WhisperNet.Cluster.Forward

/-!
# Leases That Come Back

Whether a node can hold a lease that it has not taken. What it sent when it claimed
a task may reach the others late, be passed on, and come back to it after it has
given the lease up. The merge looks at the version and at the status only, not at
whose lease it is, so nothing in it keeps a node from installing its own old lease.

What does is that the node keeps abreast of what it has sent itself. Other nodes send
no leases but their own, so every lease of a node is one that the node was told of by
itself, and its table and its file have a newer record. So an old lease that comes
back finds a newer record, also after a restart.

## Main definitions

* `Fabric.Novel`: A careful event that submits no id the node has.
* `Fabric.Takes`: A claim or an award of the task at the node.
* `Fabric.Ahead`: Ledgers keep up, and a lease comes from its node.
* `Fabric.Shift`: What a novel step can do to ledgers.

## Theorems

* `Fabric.step_shift`: Every novel step is a shift.
* `Fabric.step_ahead`: Ledgers keep up, and only a claim or an award makes a holder.
* `Fabric.leases_taken`: Over whole runs, a lease that was given up stays given up.
-/

namespace WhisperNet

open MembershipLayer TaskLedger WhisperNode
open PyVal (get)

instance (L : TaskLedger) (taskId : PyStr) : Decidable (Held L taskId) :=
  decidable_of_iff (∃ t ∈ L.find? taskId, L.isMine t = true) Iff.rfl

theorem isMine_congr {L L' : TaskLedger} (h : L'.ourKey = L.ourKey) (t : Task) :
    L'.isMine t = L.isMine t := by
  unfold isMine
  rw [h]

namespace Fabric

variable {ι : Type}

/-- The message submits no id that the ledger has. -/
def NovelSubmission (L : TaskLedger) (msg : Msg) : Prop :=
  match readSubmission msg with
  | .ok (.str taskId, _) => ¬ Has L (.str taskId)
  | _ => True

/-- A careful event that submits no id the node has. -/
def Novel (s : Fabric ι) : FabricEvent ι → Prop
  | .deliver i n env fromPeer => s.Careful (.deliver i n env fromPeer) ∧
      ∀ o ∈ s.flight[n]?, get o.msg (lit "type") = .str (lit "task_submit") →
        NovelSubmission (s.nodes i).ledger o.msg
  | .call i c env => s.Careful (.call i c env) ∧ c.Novel (s.nodes i).ledger
  | .post o => s.Careful (.post o)
  | _ => True

/-- The node claims the task, or a message that awards it arrives there. -/
def Takes (s : Fabric ι) (i : ι) (taskId : PyStr) : FabricEvent ι → Prop
  | .call j (.claimTask claimed _) _ => j = i ∧ claimed = taskId
  | .deliver j n _ _ => j = i ∧ ∃ o ∈ s.flight[n]?,
      get o.msg (lit "type") = .str (lit "task_award") ∧
        get o.msg (lit "task_id") = .str taskId
  | _ => False

/-- Keys tell the nodes apart, every ledger keeps up with what its node was told, and
    that includes all leases of the node. -/
structure Ahead (s : Fabric ι) : Prop where
  distinct : ∀ i j, (s.nodes i).ledger.ourKey = (s.nodes j).ledger.ourKey → i = j
  abreast : ∀ i, Abreast (s.news i) (s.nodes i).ledger
  own : ∀ i, ∀ e ∈ s.issued, (s.nodes i).ledger.isMine e.2 = true → e.2 ∈ s.news i

instance (L : TaskLedger) (msg : Msg) : Decidable (NovelSubmission L msg) :=
  match h : readSubmission msg with
  | .error _ => isTrue (by rw [NovelSubmission, h]; trivial)
  | .ok (.str taskId, _) => decidable_of_iff (¬ Has L (.str taskId)) (by rw [NovelSubmission, h])
  | .ok (.none, _) | .ok (.bool _, _) | .ok (.int _, _) | .ok (.float _, _) | .ok (.list _, _)
  | .ok (.dict _, _) => isTrue (by rw [NovelSubmission, h]; trivial)

instance (L : TaskLedger) (c : Call) : Decidable (c.Novel L) :=
  match c with
  | .submitTask _ taskId _ _ _ => inferInstanceAs (Decidable (¬ Has L (.str taskId)))
  | .claimTask _ _ | .renewLease _ _ | .completeTask _ _ _ _ | .releaseLease _
  | .releaseAllLeases | .recoverIdentity _ => isTrue trivial

instance (s : Fabric ι) (e : FabricEvent ι) : Decidable (s.Novel e) :=
  match e with
  | .deliver i n env fromPeer => inferInstanceAs (Decidable (s.Careful (.deliver i n env fromPeer) ∧
      ∀ o ∈ s.flight[n]?, get o.msg (lit "type") = .str (lit "task_submit") →
        NovelSubmission (s.nodes i).ledger o.msg))
  | .call i c env => inferInstanceAs (Decidable (s.Careful (.call i c env) ∧
      c.Novel (s.nodes i).ledger))
  | .post o => inferInstanceAs (Decidable (s.Careful (.post o)))
  | .beat _ _ | .work _ _ | .lose _ | .stop _ | .start _ _ _ => isTrue trivial

theorem Novel.careful {s : Fabric ι} {e : FabricEvent ι} (h : s.Novel e) : s.Careful e := by
  cases e with
  | deliver i n env fromPeer => exact h.1
  | call i c env => exact h.1
  | post o => exact h
  | _ => exact trivial

theorem ahead_initial {s : Fabric ι} (h : s.Initial)
    (hkeys : ∀ i j, (s.nodes i).ledger.ourKey = (s.nodes j).ledger.ourKey → i = j) : s.Ahead := by
  refine ⟨hkeys, fun i => ?_, fun i e he => ?_⟩
  · rw [h.news i]
    exact abreast_blank (h.tasks i) (h.disk i)
  · rw [h.issued] at he
    exact (List.not_mem_nil he).elim

instance [DecidableEq ι] (s : Fabric ι) (i : ι) (taskId : PyStr) (e : FabricEvent ι) :
    Decidable (s.Takes i taskId e) :=
  match e with
  | .call j (.claimTask claimed _) _ => inferInstanceAs (Decidable (j = i ∧ claimed = taskId))
  | .deliver j n _ _ => inferInstanceAs (Decidable (j = i ∧ ∃ o ∈ s.flight[n]?,
      get o.msg (lit "type") = .str (lit "task_award") ∧ get o.msg (lit "task_id") = .str taskId))
  | .call _ (.submitTask ..) _ | .call _ (.renewLease _ _) _ | .call _ (.completeTask ..) _
  | .call _ (.releaseLease _) _ | .call _ .releaseAllLeases _ | .call _ (.recoverIdentity _) _
  | .beat _ _ | .work _ _ | .post _ | .lose _ | .stop _ | .start _ _ _ => isFalse id

/-! ## What a step is -/

/-- What a message asks for is a turn of the node, and only an award makes it a holder. -/
theorem request_turn {P : Primitives} {s : WhisperNode} {env : NodeEnv} {msg : Msg}
    {e : TaskLedger × List Output} (hL : Kept s.ledger) (h : s.request P env msg = some e)
    (hcareful : get msg (lit "type") = .str (lit "task_submit") → CarefulSubmission s.ledger msg)
    (hnovel : get msg (lit "type") = .str (lit "task_submit") → NovelSubmission s.ledger msg) :
    Turn s.ledger e ∧ ∀ taskId, Held e.1 taskId → Held s.ledger taskId ∨
      get msg (lit "type") = .str (lit "task_award") ∧
        get msg (lit "task_id") = .str taskId := by
  unfold request at h
  by_cases hsubmit : get msg (lit "type") = .str (lit "task_submit")
  · have hsafe := hcareful hsubmit
    have hnew := hnovel hsubmit
    unfold CarefulSubmission at hsafe
    unfold NovelSubmission at hnew
    rw [if_pos hsubmit] at h
    unfold submission at h
    cases hread : readSubmission msg with
    | error err =>
        rw [hread] at h
        cases h
    | ok fields =>
        rcases fields with ⟨taskId, payload, shardId, submitterKey⟩
        rw [hread] at h hsafe hnew
        dsimp only at h hsafe
        cases henv : s.submitEnv P env shardId with
        | error err =>
            rw [henv] at h
            cases h
        | ok submitEnv =>
            rw [henv] at h
            cases taskId with
            | str taskId =>
                rw [← Option.some.inj h]
                rcases submitRaw_turn P hL hnew submitEnv payload shardId submitterKey with
                  ⟨hturn, hheld⟩
                exact ⟨hturn, fun id hid => Or.inl (hheld id hid)⟩
            | _ => exact hsafe.elim
  · rw [if_neg hsubmit] at h
    split at h
    · rename_i haward
      split at h
      · rename_i taskId htask
        split at h
        · cases h
        · -- An award is a claim.
          rw [← Option.some.inj h]
          refine ⟨run_turn P hL.filed trivial trivial, fun id hid => ?_⟩
          rcases held_of_run P s.ledger _ id hid with hold | ⟨now, hclaim⟩
          · exact Or.inl hold
          · rw [Call.claimTask.injEq] at hclaim
            rw [← hclaim.1]
            exact Or.inr ⟨haward, htask⟩
      · cases h
    · cases h

/-- The letters of some outputs carry what these gossip. -/
theorem letters_holder {env : Output → NodeEnv} {out : List Output} {Q : Task → Prop}
    (h : ∀ t ∈ gossips out, Q t) : ∀ e ∈ letters env out, Q e.2 := by
  intro e he
  rcases List.mem_map.mp he with ⟨t, ht, rfl⟩
  exact h t ht

variable [DecidableEq ι]

/-- What a step at a node leaves, apart from the copies in flight. -/
structure Performed (s s' : Fabric ι) (i : ι) (node : WhisperNode) (made : List (PyStr × Task))
    (handed : List Task) : Prop where
  nodes : s'.nodes = Function.update s.nodes i node
  issued : s'.issued = s.issued ++ made
  news : s'.news = Function.update s.news i (s.news i ++ (made.map Prod.snd ++ handed))

/-- All that a novel step can do to the ledgers and the history: nothing, something else at
    a node, a turn of a node with its ledger or with what is in its file, or the merge of
    an update that the node has not seen. -/
inductive Shift (P : Primitives) (s s' : Fabric ι) (e : FabricEvent ι) : Prop
  | aside (hnodes : s'.nodes = s.nodes) (hissued : s'.issued = s.issued) (hnews : s'.news = s.news)
  | idle {i : ι} {node : WhisperNode} {handed : List Task}
      (hdone : Performed s s' i node [] handed)
      (htasks : node.ledger.tasks = (s.nodes i).ledger.tasks)
      (hdisk : node.ledger.disk = (s.nodes i).ledger.disk)
      (hkey : node.ledger.ourKey = (s.nodes i).ledger.ourKey)
      (hknown : ∀ t ∈ handed, t ∈ s.news i)
  | turn {i : ι} {node : WhisperNode} {env : Output → NodeEnv} {out : List Output} {L : TaskLedger}
      (hdone : Performed s s' i node (letters env out) [])
      (hfrom : L = (s.nodes i).ledger ∨ L = (s.nodes i).ledger.load)
      (hturn : Turn L (node.ledger, out))
      (htakes : ∀ taskId, Held node.ledger taskId → Held L taskId ∨ s.Takes i taskId e)
  | merge {i : ι} {node : WhisperNode} {u taskId : PyStr} (x : Update P taskId)
      (hdone : Performed s s' i node [] [x.record])
      (hissued : (u, x.record) ∈ s.issued) (hreg : Regular taskId x.record)
      (hfresh : .str x.id ∉ (s.nodes i).ledger.seenIds.items)
      (hledger : node.ledger = ((s.nodes i).ledger.handleLedgerUpdate P x.msg).ledger)

theorem performed_of_perform {s s' : Fabric ι} {i : ι} {node : WhisperNode} {flight : List Send}
    {made : List (PyStr × Task)} {handed : List Task}
    (h : s.perform i node flight made handed = some s') : Performed s s' i node made handed := by
  rcases perform_some h with ⟨_, rfl⟩
  exact ⟨rfl, rfl, rfl⟩

/-- The delivery of a message of any type. -/
theorem deliver_shift {P : Primitives} {s s' : Fabric ι} {i : ι} {n : Nat} {env : NodeEnv}
    {fromPeer : PyVal} {o : Send} (hs : Sound P s) (hn : s.flight[n]? = some o)
    (hnovel : s.Novel (.deliver i n env fromPeer))
    (h : s.perform i ((s.nodes i).receive P env fromPeer o.msg).1
      (s.flight.eraseIdx n ++ ((s.nodes i).receive P env fromPeer o.msg).2)
      ((s.nodes i).issues P env o.msg) (heard o.msg) = some s') :
    Shift P s s' (.deliver i n env fromPeer) := by
  by_cases hupdate : get o.msg (lit "type") = .str (lit "ledger_update")
  · rcases hs.flight o (List.mem_of_getElem? hn) with haside | ⟨u, t, hissued, htells⟩
    · exact absurd hupdate haside
    · have hnone : (s.nodes i).issues P env o.msg = [] := by
        refine issues_none ?_ ?_
        · rw [hupdate]
          exact fun hc => absurd (PyVal.str.inj hc) (by decide)
        · rw [hupdate]
          exact fun hc => absurd (PyVal.str.inj hc) (by decide)
      rw [hnone, heard_tells htells hupdate] at h
      have hledger := receive_update P (s.nodes i) env fromPeer hupdate
      rcases htells with ⟨taskId, x, hmsg, hid, rfl, hreg⟩
      by_cases hseen : .str u ∈ (s.nodes i).ledger.seenIds.items
      · -- The update was seen, so the node was told of its record, and drops it.
        rw [update_seen P (by rw [← hmsg, x.msg_id, hid]) hseen] at hledger
        refine .idle (performed_of_perform h) (by rw [hledger]) (by rw [hledger]) (by rw [hledger])
          (fun t ht => ?_)
        rcases hs.seen i _ hseen with ⟨u', t', hu, hissued', ht'⟩
        rw [← PyVal.str.inj hu] at hissued'
        rw [List.mem_singleton.mp ht, hs.record_unique hissued hissued']
        exact ht'
      · rw [← hid] at hseen
        rw [← hmsg] at hledger h
        exact .merge x (performed_of_perform h) hissued hreg hseen hledger
  · have haside : Aside o := hupdate
    rw [heard_aside haside] at h
    by_cases hask : get o.msg (lit "type") = .str (lit "task_submit") ∨
        get o.msg (lit "type") = .str (lit "task_award")
    · unfold WhisperNode.issues at h
      rcases receive_asks P (s.nodes i) env fromPeer hask with ⟨hnone, hrun⟩ | ⟨e, hsome, hrun⟩
      · rw [hrun, hnone] at h
        exact .idle (performed_of_perform h) rfl rfl rfl (fun t ht => (List.not_mem_nil ht).elim)
      · rcases request_turn (hs.kept i) hsome (fun hsubmit => hnovel.careful o hn hsubmit)
          (hnovel.2 o hn) with ⟨hturn, hheld⟩
        rw [hrun, hsome] at h
        exact .turn (performed_of_perform h) (Or.inl rfl) hturn
          (fun id hid => (hheld id hid).imp_right (fun haward => ⟨rfl, o, hn, haward⟩))
    · rw [not_or] at hask
      rw [issues_none hask.1 hask.2] at h
      have hledger := receive_other P (s.nodes i) env fromPeer hupdate hask.1 hask.2
      exact .idle (performed_of_perform h) (by rw [hledger]) (by rw [hledger]) (by rw [hledger])
        (fun t ht => (List.not_mem_nil ht).elim)

/-- Every novel step is one of these. -/
theorem step_shift {P : Primitives} {s s' : Fabric ι} {e : FabricEvent ι} (hs : Sound P s)
    (hnovel : s.Novel e) (h : s.step P e = some s') : Shift P s s' e := by
  cases e with
  | deliver i n env fromPeer =>
      simp only [step] at h
      cases hn : s.flight[n]? with
      | none =>
          rw [hn] at h
          cases h
      | some o =>
          simp only [hn] at h
          split at h
          · exact deliver_shift hs hn hnovel h
          · cases h
  | call i c env =>
      simp only [step] at h
      split at h
      · refine .turn (performed_of_perform h) (Or.inl rfl)
          (run_turn P (hs.kept i).filed hnovel.1 hnovel.2) (fun id hid => ?_)
        rcases held_of_run P _ c id hid with hold | ⟨now, rfl⟩
        · exact Or.inl hold
        · exact Or.inr ⟨rfl, rfl⟩
      · cases h
  | beat i b =>
      simp only [step] at h
      split at h
      · refine .idle (performed_of_perform h) ?_ ?_ ?_ (fun t ht => (List.not_mem_nil ht).elim)
        · rfl
        · rfl
        · rfl
      · cases h
  | work i e =>
      simp only [step] at h
      split at h
      · rename_i hrun
        rcases Option.bind_eq_some_iff.mp h with ⟨node, hnode, hperform⟩
        rcases work_ledger hrun.2 hnode with ⟨htasks, hdisk, _⟩
        exact .idle (performed_of_perform hperform) htasks hdisk (work_keys hrun.2 hnode).2
          (fun t ht => (List.not_mem_nil ht).elim)
      · cases h
  | post o =>
      rw [← Option.some.inj h]
      exact .aside rfl rfl rfl
  | lose n =>
      simp only [step] at h
      split at h
      · rw [← Option.some.inj h]
        exact .aside rfl rfl rfl
      · cases h
  | stop i =>
      rw [← Option.some.inj h]
      exact .aside rfl rfl rfl
  | start i now env =>
      simp only [step] at h
      split at h
      · cases h
      · -- The turn of a new process is to recover what it has read from the file.
        rcases performed_of_perform h with ⟨hnodes, hissued, hnews⟩
        refine .turn (L := (s.nodes i).ledger.load) ⟨hnodes, hissued, hnews⟩ (Or.inr rfl)
          (run_turn P (c := .recoverIdentity now) (load_kept (hs.kept i)).1.filed trivial trivial)
          (fun id hid => ?_)
        rcases held_of_run P _ (.recoverIdentity now) id hid with hold | ⟨_, hclaim⟩
        · exact Or.inl hold
        · cases hclaim

/-- A node keeps its key. -/
theorem Shift.key {P : Primitives} {s s' : Fabric ι} {e : FabricEvent ι} (h : Shift P s s' e)
    (j : ι) : (s'.nodes j).ledger.ourKey = (s.nodes j).ledger.ourKey := by
  have hnode : ∀ {i node made handed}, Performed s s' i node made handed →
      node.ledger.ourKey = (s.nodes i).ledger.ourKey →
      (s'.nodes j).ledger.ourKey = (s.nodes j).ledger.ourKey := by
    intro i node made handed hdone hkey
    rw [hdone.nodes]
    by_cases hj : j = i
    · rw [hj, Function.update_self, hkey]
    · rw [Function.update_of_ne hj]
  cases h with
  | aside hnodes hissued hnews => rw [hnodes]
  | idle hdone htasks hdisk hkey hknown => exact hnode hdone hkey
  | turn hdone hfrom hturn htakes =>
      refine hnode hdone (hturn.forward.key.trans ?_)
      rcases hfrom with rfl | rfl
      · rfl
      · rfl
  | merge x hdone hissued hreg hfresh hledger =>
      refine hnode hdone ?_
      rw [hledger]
      exact (update_identity P _ x.msg).1

/-! ## Keeping up -/

/-- The ledgers keep up if the node that acts goes forward, from where it was or from its
    file, and sends no lease of another. -/
theorem Performed.ahead {s s' : Fabric ι} {i : ι} {node : WhisperNode}
    {made : List (PyStr × Task)} {handed : List Task} {L : TaskLedger}
    (h : Performed s s' i node made handed) (hs : Ahead s) (hL : Abreast (s.news i) L)
    (hkey : L.ourKey = (s.nodes i).ledger.ourKey)
    (hf : Forward L node.ledger (made.map Prod.snd ++ handed))
    (hmade : ∀ e ∈ made, e.2.leasedBy = .str L.ourKey ∨ e.2.leasedBy = .none) : Ahead s' := by
  have hkeys : ∀ j, (s'.nodes j).ledger.ourKey = (s.nodes j).ledger.ourKey := by
    intro j
    rw [h.nodes]
    by_cases hj : j = i
    · rw [hj, Function.update_self, hf.key, hkey]
    · rw [Function.update_of_ne hj]
  refine ⟨fun j k hjk => hs.distinct j k ?_, fun j => ?_, fun j e he hmine => ?_⟩
  · rw [← hkeys j, ← hkeys k]
    exact hjk
  · rw [h.nodes, h.news]
    by_cases hj : j = i
    · rw [hj, Function.update_self, Function.update_self]
      exact hL.next hf
    · rw [Function.update_of_ne hj, Function.update_of_ne hj]
      exact hs.abreast j
  · rw [isMine_congr (hkeys j)] at hmine
    rw [h.news]
    rw [h.issued] at he
    rcases List.mem_append.mp he with hold | hnew
    · -- An update that was there is in the old history.
      have hmem := hs.own j e hold hmine
      by_cases hj : j = i
      · rw [hj] at hmem
        rw [hj, Function.update_self]
        exact List.mem_append_left _ hmem
      · rw [Function.update_of_ne hj]
        exact hmem
    · -- Only the node itself sends a lease of its own.
      rw [isMine_iff] at hmine
      rcases hmade e hnew with hholder | hnone
      · rw [hholder, hkey] at hmine
        have hj : j = i := (hs.distinct i j (PyVal.str.inj hmine.1)).symm
        rw [hj, Function.update_self]
        exact List.mem_append_right _ (List.mem_append_left _ (List.mem_map_of_mem hnew))
      · rw [hnone] at hmine
        cases hmine.1

/-- Who holds a task after a step at a node. -/
theorem Performed.held {s s' : Fabric ι} {i : ι} {node : WhisperNode}
    {made : List (PyStr × Task)} {handed : List Task} (h : Performed s s' i node made handed)
    {j : ι} {taskId : PyStr} (hheld : Held (s'.nodes j).ledger taskId) :
    Held (s.nodes j).ledger taskId ∨ j = i ∧ Held node.ledger taskId := by
  rw [h.nodes] at hheld
  by_cases hj : j = i
  · rw [hj, Function.update_self] at hheld
    exact Or.inr ⟨hj, hheld⟩
  · rw [Function.update_of_ne hj] at hheld
    exact Or.inl hheld

/-- A novel event lets every ledger keep up, and only a claim or an award makes a node the
    holder of a task. -/
theorem step_ahead {P : Primitives} {s s' : Fabric ι} {e : FabricEvent ι} (hs : Sound P s)
    (ha : Ahead s) (hnovel : s.Novel e) (h : s.step P e = some s') :
    Ahead s' ∧ ∀ j taskId, Held (s'.nodes j).ledger taskId →
      Held (s.nodes j).ledger taskId ∨ s.Takes j taskId e := by
  cases step_shift hs hnovel h with
  | aside hnodes hissued hnews =>
      rcases s' with ⟨nodes, running, flight, issued, news⟩
      simp only at hnodes hissued hnews
      rw [hnodes, hissued, hnews]
      exact ⟨⟨ha.distinct, ha.abreast, ha.own⟩, fun j id hid => Or.inl hid⟩
  | idle hdone htasks hdisk hkey hknown =>
      refine ⟨hdone.ahead ha (ha.abreast _) rfl
        (forward_same (hs.kept _).filed.textKeys htasks hdisk hkey
          (fun t ht => (ha.abreast _).table t (hknown t ht)))
        (fun e he => (List.not_mem_nil he).elim), fun j id hid => ?_⟩
      rcases hdone.held hid with hold | ⟨rfl, hnew⟩
      · exact Or.inl hold
      · exact Or.inl ((held_congr htasks hkey id).mp hnew)
  | turn hdone hfrom hturn htakes =>
      rename_i i node env out L
      have hL : Abreast (s.news i) L ∧ L.ourKey = (s.nodes i).ledger.ourKey ∧
          ∀ id, Held L id → Held (s.nodes i).ledger id := by
        rcases hfrom with rfl | rfl
        · exact ⟨ha.abreast i, rfl, fun _ h => h⟩
        · exact ⟨(ha.abreast i).load, rfl, (ha.abreast i).held⟩
      refine ⟨hdone.ahead ha hL.1 hL.2.1 ?_ (letters_holder hturn.holder), fun j id hid => ?_⟩
      · rw [List.append_nil, records_letters]
        exact hturn.forward
      · rcases hdone.held hid with hold | ⟨rfl, hnew⟩
        · exact Or.inl hold
        · exact (htakes id hnew).imp_left (hL.2.2 id)
  | merge x hdone hissued hreg hfresh hledger =>
      rename_i i node u taskId
      refine ⟨hdone.ahead ha (ha.abreast i) rfl ?_ (fun e he => (List.not_mem_nil he).elim),
        fun j id hid => ?_⟩
      · rw [hledger]
        exact update_forward (hs.kept i).filed x hreg hfresh
      · rcases hdone.held hid with hold | ⟨rfl, hnew⟩
        · exact Or.inl hold
        · rw [hledger] at hnew
          -- A lease of its own that comes back was sent by the node.
          refine Or.inl (update_held (hs.kept j).filed x hreg hfresh (fun hours => ?_) id hnew)
          exact (ha.abreast j).table _ (ha.own j _ hissued hours) taskId x.record_id

/-- In a novel run every ledger keeps up. -/
theorem ahead_run {P : Primitives} (hP : P.Lawful) {s t : Fabric ι} {es : List (FabricEvent ι)}
    (hs : Sound P s ∧ Ahead s) (hnovel : Machine.Along (step P) Novel s es)
    (hrun : Machine.run (step P) s es = some t) : Sound P t ∧ Ahead t :=
  Machine.invariant_run (step P) (fun u => Sound P u ∧ Ahead u) Novel
    (fun _ _ _ h hok hstep =>
      ⟨step_sound hP h.1 hok.careful hstep, (step_ahead h.1 h.2 hok hstep).1⟩) hs hnovel hrun

omit [DecidableEq ι] in
theorem ahead_start {P : Primitives} {s : Fabric ι} (hinit : s.Initial)
    (hkeys : ∀ i j, (s.nodes i).ledger.ourKey = (s.nodes j).ledger.ourKey → i = j) :
    Sound P s ∧ Ahead s := ⟨sound_initial P hinit, ahead_initial hinit hkeys⟩

/-- Once a node does not hold a task it never holds it again without a claim or an award
    of the task, in any run that submits no id a node has: whatever is delivered late,
    twice or out of order, and whatever the node recovers from its file. -/
theorem leases_taken {P : Primitives} (hP : P.Lawful) {s u t : Fabric ι}
    {es fs : List (FabricEvent ι)} (hinit : s.Initial)
    (hkeys : ∀ i j, (s.nodes i).ledger.ourKey = (s.nodes j).ledger.ourKey → i = j)
    (hnovel : Machine.Along (step P) Novel s (es ++ fs)) (hu : Machine.run (step P) s es = some u)
    (ht : Machine.run (step P) u fs = some t) {i : ι} {taskId : PyStr}
    (hfree : ¬ Held (u.nodes i).ledger taskId)
    (hnone : Machine.Along (step P) (fun v e => ¬ v.Takes i taskId e) u fs) :
    ¬ Held (t.nodes i).ledger taskId := by
  have hsu := ahead_run hP (ahead_start hinit hkeys) hnovel.of_append hu
  -- Every ledger keeps up from there on, so the step lemma applies throughout.
  have hst : (Sound P t ∧ Ahead t) ∧ ¬ Held (t.nodes i).ledger taskId :=
    Machine.invariant_run (step P)
      (fun v => (Sound P v ∧ Ahead v) ∧ ¬ Held (v.nodes i).ledger taskId)
      (fun v e => v.Novel e ∧ ¬ v.Takes i taskId e)
      (fun _ _ _ h hok hv => by
        have hstep := step_ahead h.1.1 h.1.2 hok.1 hv
        refine ⟨⟨step_sound hP h.1.1 hok.1.careful hv, hstep.1⟩, fun hheld => ?_⟩
        exact (hstep.2 i taskId hheld).elim h.2 hok.2)
      ⟨hsu, hfree⟩ (Machine.along_and (hnovel.after hu) hnone) ht
  exact hst.2

end Fabric

namespace Late

attribute [local instance] Flood.neZero_two

open Fabric

/-- Node `a` claims its task and shuts down; node `b` is told of the claim, and passes
    it on. -/
def leaving : List (FabricEvent (Fin 2)) := early ++
  [.call 0 (.claimTask (lit "t") 1) (named (lit "2")),
    .call 0 .releaseAllLeases (named (lit "3")),
    .deliver 1 0 NodeEnv.plain (.str (lit "a"))]

/-- The claim comes back to node `a`, which is then started anew. -/
def echo : List (FabricEvent (Fin 2)) :=
  [.deliver 0 1 NodeEnv.plain (.str (lit "b")), .stop 0, .start 0 9 (named (lit "4"))]

theorem key_distinct (i j : Fin 2)
    (h : (fabric.nodes i).ledger.ourKey = (fabric.nodes j).ledger.ourKey) : i = j := by
  revert i j
  decide

/-- Node `a` installs neither the echo of its claim nor a lease from its file. -/
theorem echo_dropped : ∃ u t, Machine.run (Fabric.step reference) fabric leaving = some u ∧
    Machine.run (Fabric.step reference) u echo = some t ∧
    ¬ Held (t.nodes 0).ledger (lit "t") := by
  have hrun : (Machine.run (Fabric.step reference) fabric leaving).map (fun u =>
      decide (¬ Held (u.nodes 0).ledger (lit "t") ∧
        Machine.Along (Fabric.step reference) (fun v e => ¬ v.Takes 0 (lit "t") e) u echo) &&
        (Machine.run (Fabric.step reference) u echo).isSome) = some true := by
    decide +kernel
  rcases Option.map_eq_some_iff.mp hrun with ⟨u, hu, hfacts⟩
  rw [Bool.and_eq_true, decide_eq_true_iff] at hfacts
  rcases Option.isSome_iff_exists.mp hfacts.2 with ⟨t, ht⟩
  exact ⟨u, t, hu, ht, leases_taken reference_lawful fabric_initial key_distinct
    (by decide +kernel) hu ht hfacts.1.1 hfacts.1.2⟩

end Late

end WhisperNet
