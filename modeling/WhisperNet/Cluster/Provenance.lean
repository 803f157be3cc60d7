import WhisperNet.Cluster.Network
import WhisperNet.Cluster.Replication

/-!
# Where Records Come From

A submission fixes seven fields of a task: its id, payload, shard, time of
creation and submitter, and how the payload is sealed. No operation assigns any
of them again, but records are copied between tables, files and messages, are
read back after a restart, and replace each other in merges. So it is a matter
of whole runs that they arrive unchanged: every record held by a node, found in
a ledger file or carried by an update in flight descends from a submission of
the run and has its seven fields.

Of the run it is assumed that no client makes up an update, and nothing else.
Ids may be submitted twice, leases released by mistake and results without an
encoding. Only if the ids are submitted once does the id of a record tell the
other fields.

## Main definitions

* `Brief`: What the submission of a task fixes.
* `Call.submits`, `WhisperNode.takes`: The records a call or a message submits.
* `Fabric.created`: What an event of the cluster submits.
* `Fabric.Candid`: No client makes up an update.
* `Fabric.Shows`: A record is held, in a file or on its way.
* `Bears`, `Fabric.Descends`: The briefs of all records are among those given.

## Theorems

* `run_brief`: A call keeps the brief of a record, or submits it.
* `Fabric.step_descends`: A step brings no brief but those it submits.
* `Fabric.records_submitted`: Every record has the brief of a submission, and its
  id tells which if no id is submitted twice.
-/

namespace WhisperNet

open MembershipLayer TaskLedger WhisperNode
open PyVal (get)

/-- What the submission of a task fixes. -/
structure Brief where
  taskId : PyVal
  payload : PyVal
  shardId : PyVal
  createdAt : PyVal
  submitterKey : PyVal
  encrypted : PyVal
  thresholdT : PyVal
  deriving DecidableEq

def Task.brief (t : Task) : Brief where
  taskId := t.taskId
  payload := t.payload
  shardId := t.shardId
  createdAt := t.createdAt
  submitterKey := t.submitterKey
  encrypted := t.encrypted
  thresholdT := t.thresholdT

/-- A record whose id is a text is filed under it. Of other ids the file keeps a
    text, so after a restart they are filed under that. -/
def Task.Under (k : Key) (t : Task) : Prop := ∀ x, t.taskId = .str x → k = .str x

theorem Task.under_of_hashKey {k : Key} {t : Task} (h : hashKey t.taskId = .ok k) : t.Under k := by
  intro x hx
  rw [hx] at h
  exact (Except.ok.inj h).symm

theorem Task.Under.written {k : Key} {t : Task} (h : t.Under k) : t.Under (.str (jsonKey k)) := by
  intro x hx
  rw [h x hx]
  rfl

theorem Task.Under.congr {k : Key} {t t' : Task} (h : t.Under k) (hbrief : t'.brief = t.brief) :
    t'.Under k := by
  intro x hx
  refine h x ?_
  rw [← hx]
  exact (congrArg Brief.taskId hbrief).symm

theorem Rewritten.brief {old new : Task} (h : Rewritten old new) (hid : new.taskId = old.taskId) :
    new.brief = old.brief := by
  unfold Task.brief
  rw [hid, h.payload, h.shardId, h.createdAt, h.submitterKey, h.encrypted, h.thresholdT]

/-- The record a call submits. -/
def Call.submits (P : Primitives) (L : TaskLedger) : Call → List Task
  | .submitTask env taskId payload shardId submitterKey =>
    [L.submittedTask P env taskId payload shardId submitterKey]
  | _ => []

/-- The record a message makes a node submit. -/
def WhisperNode.takes (P : Primitives) (s : WhisperNode) (env : NodeEnv) (msg : Msg) :
    List Task :=
  if get msg (lit "type") = .str (lit "task_submit") then
    match s.submission P env msg with
    | some o => gossips o.out
    | none => []
  else []

/-! ## One ledger -/

/-- Only a submission changes the id in a record. -/
theorem edit_id {L : TaskLedger} {k : Key} {old new : Task} {c : Call}
    (h : Edit L k (some old) new c) (hc : c.isSubmit = false) : new.taskId = old.taskId := by
  cases c with
  | submitTask env taskId payload shardId submitterKey => cases hc
  | claimTask taskId now =>
      rcases h with ⟨_, t, ht, _, _, _, _, hid⟩
      rw [hid, Option.some.inj ht]
  | renewLease taskId now =>
      rcases h with ⟨_, t, ht, _, _, _, hid⟩
      rw [hid, Option.some.inj ht]
  | completeTask taskId result now uuid =>
      rcases h with ⟨_, t, ht, _, _, _, _, hid⟩
      rw [hid, Option.some.inj ht]
  | releaseLease taskId =>
      rcases h with ⟨_, t, ht, _, _, _, hid⟩
      rw [hid, Option.some.inj ht]
  | releaseAllLeases =>
      rcases h with ⟨t, ht, _, _, _, hid⟩
      rw [hid, Option.some.inj ht]
  | recoverIdentity now =>
      rcases h with ⟨t, ht, _, _, _, hid⟩
      rw [hid, Option.some.inj ht]

/-- A call keeps the brief of a record, or submits the record. -/
theorem run_brief (P : Primitives) (L : TaskLedger) (c : Call) {k : Key} {new : Task}
    (h : (c.run P L).1.tasks.get? k = some new) :
    (∃ old, L.tasks.get? k = some old ∧ new.brief = old.brief) ∨
      (new ∈ c.submits P L ∧ hashKey new.taskId = .ok k) := by
  rcases run_reworked P L c h with hsame | ⟨hc, old, hold, hre⟩ |
    ⟨env, taskId, payload, shardId, submitterKey, hc, hnew⟩
  · exact Or.inl ⟨new, hsame, rfl⟩
  · left
    refine ⟨old, hold, hre.brief ?_⟩
    rcases (run_edits P L c).record k with hsame | ⟨new', hnew', hedit, _⟩
    · rw [h, hold, Option.some.injEq] at hsame
      rw [hsame]
    · rw [h, Option.some.injEq] at hnew'
      rw [hold, ← hnew'] at hedit
      exact edit_id hedit hc
  · rw [hc] at h ⊢
    change (L.tasks.set (.str taskId) _).get? k = some new at h
    rw [Dict.get?_set] at h
    by_cases hk : k = .str taskId
    · right
      rw [hnew, hk]
      exact ⟨List.mem_singleton.mpr rfl, rfl⟩
    · rw [if_neg hk] at h
      exact Or.inl ⟨new, h, rfl⟩

/-- The briefs of all records of a ledger and of its file are among these, and
    text ids file them. -/
structure Bears (briefs : List Brief) (L : TaskLedger) : Prop where
  held : ∀ k t, L.tasks.get? k = some t → t.brief ∈ briefs ∧ t.Under k
  stored : StoredAs (fun taskId t => t.brief ∈ briefs ∧ t.Under (.str taskId)) L.disk

variable {briefs briefs' : List Brief} {L L' : TaskLedger}

theorem Bears.mono (h : Bears briefs L) (hsub : briefs ⊆ briefs') : Bears briefs' L := by
  refine ⟨fun k t ht => (h.held k t ht).imp_left (fun hb => hsub hb), fun entries hdisk e he => ?_⟩
  rcases h.stored entries hdisk e he with ⟨t, ht, hb, hunder⟩
  exact ⟨t, ht, hsub hb, hunder⟩

/-- The file is as before, or holds what the ledger now holds. -/
theorem Bears.next (h : Bears briefs L) (hfile : FileKept L L')
    (hheld : ∀ k t, L'.tasks.get? k = some t → t.brief ∈ briefs ∧ t.Under k) : Bears briefs L' :=
  ⟨hheld, stored_of_kept hfile h.stored
    (fun k t ht => (hheld k t ht).imp_right Task.Under.written)⟩

theorem Bears.load (h : Bears briefs L) : Bears briefs L.load := by
  refine ⟨fun k t ht => ?_, h.stored⟩
  rcases load_filed h.stored k t ht with ⟨taskId, rfl, hfiled⟩
  exact hfiled

/-- A call brings no brief but that of the record it submits. -/
theorem run_bears (P : Primitives) {c : Call} (h : Bears briefs L)
    (hnew : ∀ t ∈ c.submits P L, t.brief ∈ briefs) : Bears briefs (c.run P L).1 := by
  refine h.next (run_file P L c) (fun k t ht => ?_)
  rcases run_brief P L c ht with ⟨old, hold, hbrief⟩ | ⟨hsub, hid⟩
  · rcases h.held k old hold with ⟨hb, hunder⟩
    exact ⟨by rw [hbrief]; exact hb, hunder.congr hbrief⟩
  · exact ⟨hnew t hsub, Task.under_of_hashKey hid⟩

/-- What a submission is about stands in its record. -/
theorem submittedRaw_names (L : TaskLedger) (P : Primitives) (env : SubmitEnv)
    (taskId payload : PyVal) (shardId : Int) (submitterKey : PyVal) :
    (L.submittedRaw P env taskId payload shardId submitterKey).taskId = taskId ∧
      (L.submittedRaw P env taskId payload shardId submitterKey).shardId = .int shardId ∧
      (L.submittedRaw P env taskId payload shardId submitterKey).submitterKey = submitterKey := by
  cases payload with
  | str text => exact ⟨rfl, rfl, rfl⟩
  | none => exact ⟨rfl, rfl, rfl⟩
  | bool b => exact ⟨rfl, rfl, rfl⟩
  | int n => exact ⟨rfl, rfl, rfl⟩
  | float q => exact ⟨rfl, rfl, rfl⟩
  | list xs => exact ⟨rfl, rfl, rfl⟩
  | dict kvs => exact ⟨rfl, rfl, rfl⟩

theorem submitRaw_bears (P : Primitives) {env : SubmitEnv} {taskId payload : PyVal} {shardId : Int}
    {submitterKey : PyVal} (h : Bears briefs L)
    (hnew : ∀ t ∈ gossips (L.submitRaw P env taskId payload shardId submitterKey).out,
      t.brief ∈ briefs) :
    Bears briefs (L.submitRaw P env taskId payload shardId submitterKey).ledger := by
  unfold submitRaw at hnew ⊢
  cases hkey : hashKey taskId with
  | error e => exact h
  | ok key =>
      rw [hkey] at hnew
      refine h.next (Or.inr rfl) (fun k t ht => ?_)
      change (L.tasks.set key _).get? k = some t at ht
      rw [Dict.get?_set] at ht
      by_cases hk : k = key
      · rw [if_pos hk, Option.some.injEq] at ht
        rw [← ht, hk]
        exact ⟨hnew _ ((mem_gossips _ _).mpr (List.mem_singleton.mpr rfl)),
          Task.under_of_hashKey (by rw [(submittedRaw_names ..).1]; exact hkey)⟩
      · rw [if_neg hk] at ht
        exact h.held k t ht

/-- The merge brings the brief of the record it was sent. -/
theorem update_bears (P : Primitives) {msg : Msg} (h : Bears briefs L)
    (hmsg : ∀ t, Carries msg t → t.brief ∈ briefs) :
    Bears briefs (L.handleLedgerUpdate P msg).ledger := by
  refine h.next (update_file P L msg) (fun k t ht => ?_)
  rcases L.handleLedgerUpdate_cases P msg with ⟨hsame, _⟩ |
    ⟨d, incoming, key, hd, hincoming, hid, _, _, hset, _⟩
  · rw [hsame] at ht
    exact h.held k t ht
  · rw [hset, Dict.get?_set] at ht
    by_cases hk : k = key
    · rw [if_pos hk, Option.some.injEq] at ht
      rw [← ht, hk]
      exact ⟨hmsg incoming ⟨d, hd, hincoming⟩, Task.under_of_hashKey hid⟩
    · rw [if_neg hk] at ht
      exact h.held k t ht

/-! ## The cluster -/

namespace Fabric

variable {ι : Type}

/-- The briefs of the records an event submits. -/
def created (P : Primitives) (s : Fabric ι) : FabricEvent ι → List Brief
  | .call i c _ => (c.submits P (s.nodes i).ledger).map Task.brief
  | .deliver i n env _ =>
    match s.flight[n]? with
    | some o => ((s.nodes i).takes P env o.msg).map Task.brief
    | none => []
  | _ => []

/-- No client makes up an update. -/
def Candid (_ : Fabric ι) : FabricEvent ι → Prop
  | .post o => Aside o
  | _ => True

instance (s : Fabric ι) (e : FabricEvent ι) : Decidable (s.Candid e) :=
  match e with
  | .post o => inferInstanceAs (Decidable (Aside o))
  | .deliver _ _ _ _ | .call _ _ _ | .beat _ _ | .work _ _ | .lose _ | .stop _ | .start _ _ _ =>
    isTrue trivial

/-- A node holds the record, has it in its file, or it is on its way. -/
def Shows (s : Fabric ι) (r : Task) : Prop :=
  (∃ i k, (s.nodes i).ledger.tasks.get? k = some r) ∨
    (∃ i entries taskId, (s.nodes i).ledger.disk = some entries ∧
      (taskId, .dict r.toDict) ∈ entries) ∨
    ∃ o ∈ s.flight, get o.msg (lit "type") = .str (lit "ledger_update") ∧ Carries o.msg r

/-- The briefs of all records are among these. -/
structure Descends (s : Fabric ι) (briefs : List Brief) : Prop where
  nodes : ∀ i, Bears briefs (s.nodes i).ledger
  flight : ∀ o ∈ s.flight, Aside o ∨ ∀ t, Carries o.msg t → t.brief ∈ briefs

theorem descends_initial {s : Fabric ι} (h : s.Initial) : Descends s [] where
  nodes := fun i => by
    refine ⟨fun k t ht => ?_, fun entries hdisk => ?_⟩
    · rw [h.tasks i] at ht
      cases ht
    · rw [h.disk i] at hdisk
      cases hdisk
  flight := fun o ho => by
    rw [h.flight] at ho
    exact (List.not_mem_nil ho).elim

theorem Descends.mono {s : Fabric ι} (h : Descends s briefs) (hsub : briefs ⊆ briefs') :
    Descends s briefs' := by
  refine ⟨fun i => (h.nodes i).mono hsub, fun o ho => ?_⟩
  rcases h.flight o ho with haside | hcarries
  · exact Or.inl haside
  · exact Or.inr (fun t ht => hsub (hcarries t ht))

/-- What is shown has one of the briefs. -/
theorem Descends.shows {s : Fabric ι} (h : Descends s briefs) {r : Task} (hr : s.Shows r) :
    r.brief ∈ briefs := by
  rcases hr with ⟨i, k, hk⟩ | ⟨i, entries, taskId, hdisk, hmem⟩ | ⟨o, ho, htype, hcarries⟩
  · exact ((h.nodes i).held k r hk).1
  · rcases (h.nodes i).stored entries hdisk _ hmem with ⟨t, ht, hb, _⟩
    -- A dictionary is that of one record.
    have hread : Task.fromDict r.toDict = Task.fromDict t.toDict := by
      rw [PyVal.dict.inj ht]
    rw [Task.fromDict_toDict, Task.fromDict_toDict, Except.ok.injEq] at hread
    rw [hread]
    exact hb
  · rcases h.flight o ho with haside | hall
    · exact absurd htype haside
    · exact hall r hcarries

/-- The updates a call sends carry records that the ledger then holds. -/
theorem transmit_descends {P : Primitives} (env : Output → NodeEnv) (M : MembershipLayer)
    (L : TaskLedger) (out : List Output) (hout : ∀ o ∈ out, Reports o)
    (hgossip : ∀ t ∈ gossips out, t.brief ∈ briefs) :
    ∀ o ∈ transmitEach P env M L out, Aside o ∨ ∀ t, Carries o.msg t → t.brief ∈ briefs := by
  intro o ho
  rcases mem_transmitEach ho with ⟨output, hoc, ⟨t, rfl, hmsg⟩ | rfl | ⟨dest, rfl⟩⟩
  · right
    intro t' ht'
    rw [carries_unique ht' (carries_gossip hmsg)]
    exact hgossip t ((mem_gossips out t).mpr hoc)
  · rcases hout _ hoc with ⟨t, hc⟩ | ⟨msg, _, hc | ⟨dest, hc⟩⟩
    · cases hc
    · cases hc
    · cases hc
  · rcases hout _ hoc with ⟨t, hc⟩ | ⟨msg, htype, hc | ⟨dest', hc⟩⟩
    · cases hc
    · cases hc
    · left
      rw [Output.taskResult.injEq] at hc
      rw [Aside, hc.2, htype]
      exact fun hc => absurd (PyVal.str.inj hc) (by decide)

variable [DecidableEq ι]

/-- A step at a node whose ledger and messages have the briefs. -/
theorem perform_descends {s s' : Fabric ι} {i : ι} {node : WhisperNode} {flight : List Send}
    {made : List (PyStr × Task)} {handed : List Task} (hs : Descends s briefs)
    (h : s.perform i node flight made handed = some s') (hnode : Bears briefs node.ledger)
    (hflight : ∀ o ∈ flight,
      o ∈ s.flight ∨ Aside o ∨ ∀ t, Carries o.msg t → t.brief ∈ briefs) :
    Descends s' briefs := by
  rcases perform_some h with ⟨_, rfl⟩
  refine ⟨fun j => ?_, fun o ho => ?_⟩
  · by_cases hj : j = i
    · simp only [hj, Function.update_self]
      exact hnode
    · simp only [Function.update_of_ne hj]
      exact hs.nodes j
  · rcases hflight o ho with hold | hnew
    · exact hs.flight o hold
    · exact hnew

/-- A call at a node, or what a message makes of one. -/
theorem call_descends {P : Primitives} {s s' : Fabric ι} {i : ι} {node : WhisperNode}
    {e : TaskLedger × List Output} {M : MembershipLayer} {flight : List Send}
    {env : Output → NodeEnv} (hs : Descends s briefs) (hbears : Bears briefs e.1)
    (hgossip : ∀ t ∈ gossips e.2, t.brief ∈ briefs) (hout : ∀ o ∈ e.2, Reports o)
    (hnode : node.ledger = e.1) (hflight : ∀ o ∈ flight, o ∈ s.flight)
    (h : s.perform i node (flight ++ transmitEach P env M e.1 e.2) (letters env e.2) [] = some s') :
    Descends s' briefs := by
  refine perform_descends hs h (by rw [hnode]; exact hbears) (fun o ho => ?_)
  rcases List.mem_append.mp ho with hold | hnew
  · exact Or.inl (hflight o hold)
  · exact Or.inr (transmit_descends env M e.1 e.2 hout hgossip o hnew)

omit [DecidableEq ι] in
/-- What a call gossips is held, so it has one of the briefs. -/
theorem gossips_bear (P : Primitives) {c : Call} (h : Bears briefs (c.run P L).1) :
    ∀ t ∈ gossips (c.run P L).2, t.brief ∈ briefs := by
  intro t ht
  rcases (run_edits P L c).gossip t ((mem_gossips _ t).mp ht) with ⟨k, hk, _⟩
  exact (h.held k t hk).1

omit [DecidableEq ι] in
/-- What a message asks for brings the brief it submits. -/
theorem request_bears {P : Primitives} {s : WhisperNode} {env : NodeEnv} {msg : Msg}
    {e : TaskLedger × List Output} (h : s.request P env msg = some e) (hs : Bears briefs s.ledger)
    (hnew : ∀ t ∈ s.takes P env msg, t.brief ∈ briefs) :
    Bears briefs e.1 ∧ (∀ t ∈ gossips e.2, t.brief ∈ briefs) ∧ ∀ o ∈ e.2, Reports o := by
  unfold request at h
  unfold takes at hnew
  by_cases hsubmit : get msg (lit "type") = .str (lit "task_submit")
  · rw [if_pos hsubmit] at h hnew
    rcases Option.map_eq_some_iff.mp h with ⟨o, ho, rfl⟩
    rw [ho] at hnew
    unfold submission at ho
    cases hread : readSubmission msg with
    | error err =>
        rw [hread] at ho
        cases ho
    | ok fields =>
        rw [hread] at ho
        dsimp only at ho
        cases henv : s.submitEnv P env fields.2.2.1 with
        | error err =>
            rw [henv] at ho
            cases ho
        | ok submitEnv =>
            rw [henv] at ho
            rw [← Option.some.inj ho] at hnew ⊢
            refine ⟨submitRaw_bears P hs hnew, hnew, fun x hx => ?_⟩
            -- A submission gossips its record, if it makes one.
            simp only [Outcome.effect, submitRaw] at hx
            cases hkey : hashKey fields.1 with
            | error err =>
                rw [hkey] at hx
                exact (List.not_mem_nil hx).elim
            | ok key =>
                rw [hkey] at hx
                exact reports_gossip _ x hx
  · rw [if_neg hsubmit] at h
    split at h
    · split at h
      · split at h
        · cases h
        · rename_i taskId _ _
          rw [← Option.some.inj h]
          have hbears := run_bears P (c := .claimTask taskId env.member.now) hs
            (fun t ht => (List.not_mem_nil ht).elim)
          exact ⟨hbears, gossips_bear P hbears, run_out P s.ledger _⟩
      · cases h
    · cases h

theorem deliver_descends {P : Primitives} {s s' : Fabric ι} {i : ι} {n : Nat} {env : NodeEnv}
    {fromPeer : PyVal} {o : Send} (hs : Descends s briefs) (hn : s.flight[n]? = some o)
    (hnew : ∀ t ∈ (s.nodes i).takes P env o.msg, t.brief ∈ briefs)
    (h : s.perform i ((s.nodes i).receive P env fromPeer o.msg).1
      (s.flight.eraseIdx n ++ ((s.nodes i).receive P env fromPeer o.msg).2)
      ((s.nodes i).issues P env o.msg) (heard o.msg) = some s') : Descends s' briefs := by
  have hrest : ∀ c ∈ s.flight.eraseIdx n, c ∈ s.flight := fun c hc => List.mem_of_mem_eraseIdx hc
  by_cases hupdate : get o.msg (lit "type") = .str (lit "ledger_update")
  · rcases hs.flight o (List.mem_of_getElem? hn) with haside | hcarries
    · exact absurd hupdate haside
    · -- A relay carries the record of the message.
      have hrelays : Relays o.msg ((s.nodes i).receive P env fromPeer o.msg).2 := by
        refine receive_relays P _ env fromPeer o.msg ?_
        rw [isGossip, hupdate, pyEq_refl, Bool.or_true]
      refine perform_descends hs h ?_ (fun c hc => ?_)
      · rw [receive_update P _ env fromPeer hupdate]
        exact update_bears P (hs.nodes i) hcarries
      · rcases List.mem_append.mp hc with hold | hout
        · exact Or.inl (hrest c hold)
        · right
          right
          intro t ht
          rcases decHops_assign (hrelays.2 c hout) with ⟨v, hv⟩
          rw [hv] at ht
          exact hcarries t ((carries_relay o.msg v t).mp ht)
  · have haside : Aside o := hupdate
    by_cases hask : get o.msg (lit "type") = .str (lit "task_submit") ∨
        get o.msg (lit "type") = .str (lit "task_award")
    · unfold WhisperNode.issues at h
      rw [heard_aside haside] at h
      rcases receive_asks P (s.nodes i) env fromPeer hask with ⟨hnone, hrun⟩ | ⟨e, hsome, hrun⟩
      · rw [hrun, hnone] at h
        refine perform_descends hs h (hs.nodes i) (fun c hc => Or.inl (hrest c ?_))
        rw [List.append_nil] at hc
        exact hc
      · rw [hrun, hsome, transmit_eq] at h
        rcases request_bears hsome (hs.nodes i) hnew with ⟨hbears, hgossip, hout⟩
        exact call_descends hs hbears hgossip hout rfl hrest h
    · rw [not_or] at hask
      have hledger := receive_other P (s.nodes i) env fromPeer hupdate hask.1 hask.2
      refine perform_descends hs h (by rw [hledger]; exact hs.nodes i) (fun c hc => ?_)
      rcases List.mem_append.mp hc with hold | hout
      · exact Or.inl (hrest c hold)
      · exact Or.inr (Or.inl (receive_aside P _ env fromPeer hupdate hask.1 hask.2 c hout))

/-- A step brings no brief but those it submits. -/
theorem step_descends {P : Primitives} {s s' : Fabric ι} {e : FabricEvent ι}
    (hs : Descends s briefs) (hcandid : s.Candid e) (h : s.step P e = some s') :
    Descends s' (briefs ++ s.created P e) := by
  have hold : Descends s (briefs ++ s.created P e) := hs.mono (List.subset_append_left ..)
  cases e with
  | deliver i n env fromPeer =>
      simp only [step] at h
      cases hn : s.flight[n]? with
      | none =>
          rw [hn] at h
          cases h
      | some o =>
          simp only [hn] at h
          split at h
          · refine deliver_descends hold hn (fun t ht => ?_) h
            refine List.mem_append_right _ ?_
            rw [created, hn]
            exact List.mem_map_of_mem ht
          · cases h
  | call i c env =>
      simp only [step] at h
      split at h
      · have hbears := run_bears P (c := c) (hold.nodes i)
          (fun t ht => List.mem_append_right _ (List.mem_map_of_mem ht))
        exact call_descends hold hbears (gossips_bear P hbears) (run_out P _ c) rfl
          (fun o ho => ho) h
      · cases h
  | beat i b =>
      simp only [step] at h
      split at h
      · refine perform_descends hold h (hold.nodes i) (fun o ho => ?_)
        rcases List.mem_append.mp ho with ho | hnew
        · exact Or.inl ho
        · exact Or.inr (Or.inl ((beat_aside b (s.nodes i).membership).2 o hnew trivial))
      · cases h
  | work i e =>
      simp only [step] at h
      split at h
      · rename_i hrun
        rcases Option.bind_eq_some_iff.mp h with ⟨node, hnode, hperform⟩
        rcases work_ledger hrun.2 hnode with ⟨htasks, hdisk, _⟩
        refine perform_descends hold hperform ⟨?_, ?_⟩ (fun o ho => Or.inl ho)
        · rw [htasks]
          exact (hold.nodes i).held
        · rw [hdisk]
          exact (hold.nodes i).stored
      · cases h
  | post o =>
      rw [← Option.some.inj h]
      refine ⟨hold.nodes, fun c hc => ?_⟩
      rcases List.mem_append.mp hc with hc | hnew
      · exact hold.flight c hc
      · rw [List.mem_singleton.mp hnew]
        exact Or.inl hcandid
  | lose n =>
      simp only [step] at h
      split at h
      · rw [← Option.some.inj h]
        exact ⟨hold.nodes, fun c hc => hold.flight c (List.mem_of_mem_eraseIdx hc)⟩
      · cases h
  | stop i =>
      rw [← Option.some.inj h]
      exact ⟨hold.nodes, hold.flight⟩
  | start i now env =>
      simp only [step] at h
      split at h
      · cases h
      · -- The new process has the records of the file, with some leases extended.
        have hbears := run_bears P (c := .recoverIdentity now) (hold.nodes i).load
          (fun t ht => (List.not_mem_nil ht).elim)
        have hstarted : Descends { s with running := Function.update s.running i true }
            (briefs ++ s.created P (.start i now env)) := ⟨hold.nodes, hold.flight⟩
        exact call_descends hstarted hbears (gossips_bear P hbears)
          (run_out P (s.nodes i).ledger.load (.recoverIdentity now)) rfl (fun o ho => ho) h

/-- After a candid run from nodes without records, the briefs are those submitted. -/
theorem run_descends {P : Primitives} {s t : Fabric ι} {es : List (FabricEvent ι)}
    (hinit : s.Initial) (hcandid : Machine.Along (step P) Candid s es)
    (hrun : Machine.run (step P) s es = some t) :
    Descends t (Machine.emitted (step P) (created P) s es) := by
  have h := Machine.invariant_emitted (step P) (created P) Descends Candid
    (fun _ _ _ _ hs hok hstep => step_descends hs hok hstep) (descends_initial hinit) hcandid hrun
  rw [List.nil_append] at h
  exact h

/-- In every run where no client makes up an update, each record that a node holds
    or has in its file, or that is on its way, has the brief of a submission of the
    run. If no id is submitted twice, two records of one id have the same brief. -/
theorem records_submitted {P : Primitives} {s t : Fabric ι} {es : List (FabricEvent ι)}
    (hinit : s.Initial) (hcandid : Machine.Along (step P) Candid s es)
    (hrun : Machine.run (step P) s es = some t) :
    (∀ r, t.Shows r → ∃ es₁ e es₂ u u', es = es₁ ++ e :: es₂ ∧
      Machine.run (step P) s es₁ = some u ∧ u.step P e = some u' ∧ r.brief ∈ u.created P e) ∧
    (((Machine.emitted (step P) (created P) s es).map Brief.taskId).Nodup →
      ∀ r r', t.Shows r → t.Shows r' → r.taskId = r'.taskId → r.brief = r'.brief) := by
  have hdescends := run_descends hinit hcandid hrun
  refine ⟨fun r hr => Machine.mem_emitted.mp (hdescends.shows hr), ?_⟩
  intro hnodup r r' hr hr' hid
  exact List.inj_on_of_nodup_map hnodup (hdescends.shows hr) (hdescends.shows hr') hid

end Fabric

namespace Late

open Fabric

/-- The node that joined holds the one task there is, as it was submitted. -/
theorem early_submitted : ∃ t, Machine.run (Fabric.step reference) fabric early = some t ∧
    Has (t.nodes 1).ledger (.str (lit "t")) ∧
    ∀ r r', t.Shows r → t.Shows r' → r.taskId = r'.taskId → r.brief = r'.brief := by
  have hrun : (Machine.run (Fabric.step reference) fabric early).map (fun t =>
      decide (Has (t.nodes 1).ledger (.str (lit "t")))) = some true := by
    decide +kernel
  have hnodup : ((Machine.emitted (Fabric.step reference) (created reference) fabric early).map
      Brief.taskId).Nodup := by
    decide +kernel
  rcases Option.map_eq_some_iff.mp hrun with ⟨t, ht, hhas⟩
  exact ⟨t, ht, of_decide_eq_true hhas,
    (records_submitted fabric_initial (by decide +kernel) ht).2 hnodup⟩

end Late

end WhisperNet
