import WhisperNet.Crypto.Reference
import WhisperNet.Ledger.News
import WhisperNet.Runtime.Traffic

/-!
# Replication of the Ledger

Several nodes and the messages between them, each copy of which is delivered
once or lost. A node gossips a record when it changes it, to at most three
peers, and passes on an update that it installs. Nothing is ever sent again: a
node that joins late, is left out by every fanout or loses its copy is not told
of the task by anything in the code.

So what a node holds depends on what it was told. The history of a node, kept
as a ghost, lists the records of the updates it issued and of those it was
handed, and the progress of its ledger is at all times what that history says,
through merges, leases, lost copies and restarts (`news_run`). Two nodes hold
and have completed the same tasks exactly if they were told of the same tasks
and completed tasks (`replication_iff`), in particular if every update reached
both (`replicated_of_reached`).

The runs in question are careful: nothing submits a completed id again, whose
record would be open at that node and completed at the others, submits an id
that is no text, releases the lease of a completed record, or completes a task
with a result that has no encoding, and no client makes up an update. Fresh ids
are different, as far as the ledger draws them.

## Main definitions

* `Fabric`: Nodes, the copies in flight, and the ghost history.
* `FabricEvent`: A delivery, an operation, a loss, a stop or a start.
* `Fabric.step`: The fabric after an event.
* `Fabric.Careful`: The events that lose no progress.
* `Fabric.Replicated`: At rest, nodes that see each other hold the same tasks.
* `Fabric.SameNews`: At rest, nodes that see each other were told the same.
* `Fabric.Sound`: The invariant of careful runs.

## Theorems

* `step_sound`, `news_run`: In a careful run a ledger is what it was told.
* `replicated_of_reached`: An update that reaches both nodes is in both.
* `replication_iff`: When a run is replicated throughout.
* `Late.unreplicated`: A node that joins after a submission never hears of it.
-/

namespace WhisperNet

open MembershipLayer TaskLedger WhisperNode
open PyVal (get getD)

/-- The record of an update that arrives. -/
def heard (msg : Msg) : List Task :=
  if get msg (lit "type") = .str (lit "ledger_update") then
    match get msg (lit "task") with
    | .dict d =>
      match Task.fromDict d with
      | .ok t => [t]
      | .error _ => []
    | _ => []
  else []

/-- The records a call gossips, with the ids of their updates. -/
def letters (env : Output → NodeEnv) (out : List Output) : List (PyStr × Task) :=
  (gossips out).map (fun t => ((env (.gossip t)).uuid, t))

/-- The updates a node issues while it handles a message. -/
def WhisperNode.issues (P : Primitives) (s : WhisperNode) (env : NodeEnv) (msg : Msg) :
    List (PyStr × Task) :=
  match s.request P env msg with
  | some e => letters (fun _ => env) e.2
  | none => []

/-- The steps of the other threads that neither send nor change a record. -/
def NodeEvent.isWork : NodeEvent → Bool
  | .converge | .openAuction _ | .closeAuction _ | .openShares _ _ _ | .closeShares _
  | .drainResults => true
  | _ => false

/-- The nodes of a cluster and the copies in flight. `issued` and `news` are
    ghosts: every update made so far with its id, and the records of those that
    a node issued or was handed. -/
structure Fabric (ι : Type) where
  nodes : ι → WhisperNode
  running : ι → Bool
  flight : List Send
  issued : List (PyStr × Task)
  news : ι → List Task

/-- `deliver i n` hands node `i` the `n`-th copy in flight. `post` is a message
    of any type, by a client or by a thread that runs an auction or collects
    shares. `start` is a process that starts for the first time or anew, with
    what is in its ledger file. -/
inductive FabricEvent (ι : Type)
  | deliver (i : ι) (n : Nat) (env : NodeEnv) (fromPeer : PyVal)
  | call (i : ι) (c : Call) (env : Output → NodeEnv)
  | beat (i : ι) (b : Beat)
  | work (i : ι) (e : NodeEvent)
  | post (o : Send)
  | lose (n : Nat)
  | stop (i : ι)
  | start (i : ι) (now : ℚ) (env : Output → NodeEnv)

namespace Fabric

variable {ι : Type}

/-- The ids are new, and different. -/
def Fresh (s : Fabric ι) (ids : List PyStr) : Prop :=
  ids.Nodup ∧ ∀ u ∈ ids, u ≠ [] ∧ u ∉ s.issued.map Prod.fst

instance (s : Fabric ι) (ids : List PyStr) : Decidable (s.Fresh ids) :=
  inferInstanceAs (Decidable (_ ∧ _))

/-- Nodes without a ledger file, before anything happened. -/
structure Initial (s : Fabric ι) : Prop where
  tasks : ∀ i, (s.nodes i).ledger.tasks = Dict.empty
  seenIds : ∀ i, (s.nodes i).ledger.seenIds = Window.empty
  disk : ∀ i, (s.nodes i).ledger.disk = none
  flight : s.flight = []
  issued : s.issued = []
  news : ∀ i, s.news i = []

/-- Node `i` sees node `j` as alive. -/
def Sees (s : Fabric ι) (i j : ι) : Prop :=
  (s.nodes i).membership.aliveAt (.str (s.nodes j).membership.ourKey)

/-- The two nodes run and see each other as alive. -/
def Paired (s : Fabric ι) (i j : ι) : Prop :=
  s.running i = true ∧ s.running j = true ∧ s.Sees i j ∧ s.Sees j i

instance (s : Fabric ι) (i j : ι) : Decidable (s.Sees i j) :=
  inferInstanceAs (Decidable (MembershipLayer.aliveAt _ _))

instance (s : Fabric ι) (i j : ι) : Decidable (s.Paired i j) :=
  inferInstanceAs (Decidable (_ ∧ _ ∧ _ ∧ _))

/-- With nothing in flight, any two nodes that run and see each other as alive
    hold the same tasks and agree on which are completed. -/
def Replicated (s : Fabric ι) : Prop :=
  s.flight = [] → ∀ i j, s.Paired i j → ∀ k,
    (Has (s.nodes i).ledger k ↔ Has (s.nodes j).ledger k) ∧
      (Done (s.nodes i).ledger k ↔ Done (s.nodes j).ledger k)

/-- Node `i` issued or was handed an update of the task. -/
def Told (s : Fabric ι) (i : ι) (k : Key) : Prop := ∃ t ∈ s.news i, hashKey t.taskId = .ok k

/-- Node `i` issued or was handed an update that completes the task. -/
def ToldDone (s : Fabric ι) (i : ι) (k : Key) : Prop :=
  ∃ t ∈ s.news i, hashKey t.taskId = .ok k ∧ t.Completed

/-- With nothing in flight, any two nodes that run and see each other as alive
    were told of the same tasks and of the same completed ones. -/
def SameNews (s : Fabric ι) : Prop :=
  s.flight = [] → ∀ i j, s.Paired i j → ∀ k,
    (s.Told i k ↔ s.Told j k) ∧ (s.ToldDone i k ↔ s.ToldDone j k)

/-- A submission is careful if its id is a text that is not completed here. -/
def CarefulSubmission (L : TaskLedger) (msg : Msg) : Prop :=
  match readSubmission msg with
  | .error _ => True
  | .ok fields =>
    match fields.1 with
    | .str taskId => ¬ Done L (.str taskId)
    | _ => False

/-- The events that lose no progress and make none in secret. -/
def Careful (s : Fabric ι) : FabricEvent ι → Prop
  | .deliver i n _ _ => ∀ o ∈ s.flight[n]?, get o.msg (lit "type") = .str (lit "task_submit") →
      CarefulSubmission (s.nodes i).ledger o.msg
  | .call i c _ => WhisperNet.Careful (s.nodes i).ledger c
  | .post o => Aside o
  | _ => True

instance (L : TaskLedger) (msg : Msg) : Decidable (CarefulSubmission L msg) :=
  match h : readSubmission msg with
  | .error _ => isTrue (by rw [CarefulSubmission, h]; trivial)
  | .ok (.str taskId, _) => decidable_of_iff (¬ Done L (.str taskId)) (by rw [CarefulSubmission, h])
  | .ok (.none, _) | .ok (.bool _, _) | .ok (.int _, _) | .ok (.float _, _) | .ok (.list _, _)
  | .ok (.dict _, _) => isFalse (by rw [CarefulSubmission, h]; exact id)

instance (s : Fabric ι) (e : FabricEvent ι) : Decidable (s.Careful e) :=
  match e with
  | .deliver i n _ _ => inferInstanceAs (Decidable (∀ o ∈ s.flight[n]?,
      get o.msg (lit "type") = .str (lit "task_submit") →
        CarefulSubmission (s.nodes i).ledger o.msg))
  | .call i c _ => inferInstanceAs (Decidable (WhisperNet.Careful (s.nodes i).ledger c))
  | .post o => inferInstanceAs (Decidable (Aside o))
  | .beat _ _ | .work _ _ | .lose _ | .stop _ | .start _ _ _ => isTrue trivial

variable [DecidableEq ι]

/-- A step at a node: its state, the copies in flight, and what is added to the
    ghosts. -/
def perform (s : Fabric ι) (i : ι) (node : WhisperNode) (flight : List Send)
    (made : List (PyStr × Task)) (handed : List Task) : Option (Fabric ι) :=
  if s.Fresh (made.map Prod.fst) then
    some { s with
      nodes := Function.update s.nodes i node
      flight := flight
      issued := s.issued ++ made
      news := Function.update s.news i (s.news i ++ (made.map Prod.snd ++ handed)) }
  else none

def step (P : Primitives) (s : Fabric ι) : FabricEvent ι → Option (Fabric ι)
  | .deliver i n env fromPeer =>
    match s.flight[n]? with
    | none => none
    | some o =>
      if s.running i ∧ o.dest = .str (s.nodes i).membership.ourKey then
        let r := (s.nodes i).receive P env fromPeer o.msg
        s.perform i r.1 (s.flight.eraseIdx n ++ r.2) ((s.nodes i).issues P env o.msg) (heard o.msg)
      else none
  | .call i c env =>
    if s.running i then
      let e := c.run P (s.nodes i).ledger
      s.perform i { s.nodes i with ledger := e.1 }
        (s.flight ++ transmitEach P env (s.nodes i).membership e.1 e.2) (letters env e.2) []
    else none
  | .beat i b =>
    if s.running i then
      let e := b.act (s.nodes i).membership
      s.perform i { s.nodes i with membership := e.state } (s.flight ++ e.out) [] []
    else none
  | .work i e =>
    if s.running i ∧ e.isWork then
      ((s.nodes i).step P e).bind (fun node => s.perform i node s.flight [] [])
    else none
  | .post o => some { s with flight := s.flight ++ [o] }
  | .lose n => if n < s.flight.length then some { s with flight := s.flight.eraseIdx n } else none
  | .stop i => some { s with running := Function.update s.running i false }
  | .start i now env =>
    if s.running i then none
    else
      let node := (s.nodes i).restart now
      let out := ((s.nodes i).ledger.load.recoverIdentity now).out
      ({ s with running := Function.update s.running i true }).perform i node
        (s.flight ++ transmitEach P env node.membership node.ledger out) (letters env out) []

theorem perform_some {s s' : Fabric ι} {i : ι} {node : WhisperNode} {flight : List Send}
    {made : List (PyStr × Task)} {handed : List Task}
    (h : s.perform i node flight made handed = some s') :
    s.Fresh (made.map Prod.fst) ∧ s' = { s with
      nodes := Function.update s.nodes i node
      flight := flight
      issued := s.issued ++ made
      news := Function.update s.news i (s.news i ++ (made.map Prod.snd ++ handed)) } := by
  unfold perform at h
  by_cases hf : s.Fresh (made.map Prod.fst)
  · rw [if_pos hf] at h
    exact ⟨hf, (Option.some.inj h).symm⟩
  · rw [if_neg hf] at h
    exact (nomatch h)

end Fabric

/-! ## Updates on their way -/

/-- The message is an update with this id and this record, a regular one. -/
def Tells (P : Primitives) (msg : Msg) (u : PyStr) (t : Task) : Prop :=
  ∃ taskId, ∃ x : Update P taskId, x.msg = msg ∧ x.id = u ∧ x.record = t ∧ Regular taskId t

theorem verify_relayed (P : Primitives) {msg relayed : Msg}
    (h : decHops msg = .ok (some relayed)) : verify P relayed = verify P msg := by
  have hget : ∀ {field}, field ≠ lit "hops" → get relayed field = get msg field := fun hf => by
    unfold PyVal.get
    rw [lookup_relayed h hf]
  have hcanonical : canonical P relayed = canonical P msg := by
    rcases decHops_assign h with ⟨v, hv⟩
    rw [hv, canonical_assign P _ _ _ (by decide) (by decide)]
  unfold verify checkSignature
  rw [hget (by decide), hget (by decide), hcanonical]

/-- A relay tells the same. -/
theorem tells_relayed {P : Primitives} {msg relayed : Msg} {u : PyStr} {t : Task}
    (h : decHops msg = .ok (some relayed)) (ht : Tells P msg u t) : Tells P relayed u t := by
  rcases ht with ⟨taskId, x, rfl, hid, hrecord, hreg⟩
  have hget : ∀ {field}, field ≠ lit "hops" → get relayed field = get x.msg field := fun hf => by
    unfold PyVal.get
    rw [lookup_relayed h hf]
  refine ⟨taskId, ⟨relayed, x.id, x.record, ?_, x.id_nonempty, ?_, x.record_id, x.version, ?_⟩,
    rfl, hid, hrecord, hreg⟩
  · rw [hget (by decide)]
    exact x.msg_id
  · rw [hget (by decide)]
    exact x.carries
  · rw [verify_relayed P h]
    exact x.accepted

/-- What is heard from an update is its record. -/
theorem heard_tells {P : Primitives} {msg : Msg} {u : PyStr} {t : Task} (ht : Tells P msg u t)
    (htype : get msg (lit "type") = .str (lit "ledger_update")) : heard msg = [t] := by
  rcases ht with ⟨taskId, x, hmsg, _, hrecord, _⟩
  rcases x.carries with ⟨d, hd, hrec⟩
  rw [hmsg] at hd
  rw [hrecord] at hrec
  unfold heard
  rw [if_pos htype, hd]
  simp only [hrec]

theorem heard_aside {o : Send} (h : Aside o) : heard o.msg = [] := if_neg h

theorem records_letters (env : Output → NodeEnv) (out : List Output) :
    (letters env out).map Prod.snd = gossips out := by
  unfold letters
  rw [List.map_map]
  exact List.map_id _

/-- The updates a call issues, on their way. -/
theorem transmit_tells {P : Primitives} (hP : P.Lawful) (env : Output → NodeEnv)
    (M : MembershipLayer) (L : TaskLedger) (out : List Output)
    (hregular : ∀ t ∈ gossips out, ∃ taskId, Regular taskId t) (hout : ∀ o ∈ out, Reports o)
    (hids : ∀ u ∈ (letters env out).map Prod.fst, u ≠ []) :
    ∀ o ∈ transmitEach P env M L out,
      Aside o ∨ ∃ u t, (u, t) ∈ letters env out ∧ Tells P o.msg u t := by
  intro o ho
  rcases mem_transmitEach ho with ⟨output, hoc, ⟨t, rfl, hmsg⟩ | rfl | ⟨dest, rfl⟩⟩
  · right
    have ht := (mem_gossips out t).mpr hoc
    have hletter : ((env (.gossip t)).uuid, t) ∈ letters env out := List.mem_map_of_mem ht
    rcases hregular t ht with ⟨taskId, hreg⟩
    rcases gossip_update P hP L _ taskId t o.msg hmsg (hids _ (List.mem_map_of_mem hletter)) hreg.id
      hreg.version with ⟨x, hx, hid, hrecord⟩
    exact ⟨_, t, hletter, taskId, x, hx, hid, hrecord, hreg⟩
  · rcases hout _ hoc with ⟨t, hc⟩ | ⟨msg, _, hc | ⟨dest, hc⟩⟩
    · exact (nomatch hc)
    · exact (nomatch hc)
    · exact (nomatch hc)
  · rcases hout _ hoc with ⟨t, hc⟩ | ⟨msg, htype, hc | ⟨dest', hc⟩⟩
    · exact (nomatch hc)
    · exact (nomatch hc)
    · left
      rw [Output.taskResult.injEq] at hc
      rw [Aside, hc.2, htype]
      exact fun hc => absurd (PyVal.str.inj hc) (by decide)

/-! ## What an operation does to a ledger -/

/-- An operation of the ledger, made by the node itself: it absorbs the records
    that it gossips. -/
structure Deed (L : TaskLedger) (e : TaskLedger × List Output) : Prop where
  kept : Kept e.1
  absorbs : Absorb.Absorbs Task.tells (progress L) (progress e.1) (gossips e.2)
  regular : ∀ t ∈ gossips e.2, ∃ taskId, Regular taskId t
  out : ∀ o ∈ e.2, Reports o
  seen : ∀ v ∈ e.1.seenIds.items, v ∈ L.seenIds.items

theorem run_deed (P : Primitives) {L : TaskLedger} {c : Call} (hL : Kept L) (hc : Careful L c) :
    Deed L (c.run P L) where
  kept := run_kept P hL hc
  absorbs := run_absorbs P hL.filed hc
  regular := fun t ht => by
    rcases (run_edits P L c).gossip t ((mem_gossips _ t).mp ht) with ⟨k, hk, _⟩
    rcases run_filed P c hL.filed k t hk with ⟨taskId, _, hreg⟩
    exact ⟨taskId, hreg⟩
  out := run_out P L c
  seen := fun v hv => by
    rcases run_worked P L c with ⟨_, _, _, hw⟩
    rw [hw] at hv
    exact hv

/-- A submitted record of any payload is regular. -/
theorem submittedRaw_regular (L : TaskLedger) (P : Primitives) (env : SubmitEnv) (taskId : PyStr)
    (payload : PyVal) (shardId : Int) (submitterKey : PyVal) :
    Regular taskId (L.submittedRaw P env (.str taskId) payload shardId submitterKey) := by
  cases payload with
  | str text => exact ⟨rfl, Or.inl rfl, rfl⟩
  | none => exact ⟨rfl, Or.inl rfl, rfl⟩
  | bool b => exact ⟨rfl, Or.inl rfl, rfl⟩
  | int n => exact ⟨rfl, Or.inl rfl, rfl⟩
  | float q => exact ⟨rfl, Or.inl rfl, rfl⟩
  | list xs => exact ⟨rfl, Or.inl rfl, rfl⟩
  | dict kvs => exact ⟨rfl, Or.inl rfl, rfl⟩

theorem submitRaw_deed (P : Primitives) {L : TaskLedger} (hL : Kept L) {taskId : PyStr}
    (hopen : ¬ Done L (.str taskId)) (env : SubmitEnv) (payload : PyVal) (shardId : Int)
    (submitterKey : PyVal) :
    Deed L (L.submitRaw P env (.str taskId) payload shardId submitterKey).effect := by
  have hreg := submittedRaw_regular L P env taskId payload shardId submitterKey
  have hfiles : Files L (L.submitRaw P env (.str taskId) payload shardId submitterKey).ledger
      (.str taskId) (L.submittedRaw P env (.str taskId) payload shardId submitterKey) :=
    ⟨rfl, by rw [hreg.id]; rfl, (progress_le_open hopen).trans (open_le_stage _), rfl⟩
  have hfiled := filed_set hL.filed hfiles.tasks hreg
  constructor
  · exact hL.next hfiled (Or.inr rfl) (Or.inl rfl)
  · refine hfiles.absorbs (List.mem_singleton.mpr rfl) (fun t ht k => ?_)
    rw [List.mem_singleton.mp ht]
    refine tells_le_progress ?_ hfiles.key k
    exact Dict.get?_set_self _ _ _
  · intro t ht
    rw [List.mem_singleton.mp ht]
    exact ⟨taskId, hreg⟩
  · exact reports_gossip _
  · exact fun v hv => hv

/-- What a careful submission or an award asks for is a deed. -/
theorem request_deed {P : Primitives} {s : WhisperNode} {env : NodeEnv} {msg : Msg}
    {e : TaskLedger × List Output} (hL : Kept s.ledger) (h : s.request P env msg = some e)
    (hcareful : get msg (lit "type") = .str (lit "task_submit") →
      Fabric.CarefulSubmission s.ledger msg) : Deed s.ledger e := by
  unfold request at h
  -- A submission is careful by assumption, an award is a claim.
  by_cases hsubmit : get msg (lit "type") = .str (lit "task_submit")
  · have hsafe := hcareful hsubmit
    unfold Fabric.CarefulSubmission at hsafe
    rw [if_pos hsubmit] at h
    unfold submission at h
    cases hread : readSubmission msg with
    | error err =>
        rw [hread] at h
        exact (nomatch h)
    | ok fields =>
        rcases fields with ⟨taskId, payload, shardId, submitterKey⟩
        rw [hread] at h hsafe
        dsimp only at h hsafe
        cases henv : s.submitEnv P env shardId with
        | error err =>
            rw [henv] at h
            exact (nomatch h)
        | ok submitEnv =>
            rw [henv] at h
            cases taskId with
            | str taskId =>
                rw [← Option.some.inj h]
                exact submitRaw_deed P hL hsafe submitEnv payload shardId submitterKey
            | _ => exact hsafe.elim
  · rw [if_neg hsubmit] at h
    split at h
    · split at h
      · split at h
        · exact (nomatch h)
        · rw [← Option.some.inj h]
          exact run_deed P hL trivial
      · exact (nomatch h)
    · exact (nomatch h)

theorem issues_none {P : Primitives} {s : WhisperNode} {env : NodeEnv} {msg : Msg}
    (hsubmit : get msg (lit "type") ≠ .str (lit "task_submit"))
    (haward : get msg (lit "type") ≠ .str (lit "task_award")) : s.issues P env msg = [] := by
  unfold WhisperNode.issues request
  rw [if_neg hsubmit, if_neg haward]

/-! ## The invariant -/

namespace Fabric

variable {ι : Type}

/-- Ledgers are in step with their files and show what the nodes were told, every
    update in flight is one that was issued, ids tell the updates apart, and what
    a ledger remembers to have seen it was told. -/
structure Sound (P : Primitives) (s : Fabric ι) : Prop where
  kept : ∀ i, Kept (s.nodes i).ledger
  known : ∀ i k, progress (s.nodes i).ledger k = Absorb.gathered Task.tells (s.news i) k
  flight : ∀ o ∈ s.flight, Aside o ∨ ∃ u t, (u, t) ∈ s.issued ∧ Tells P o.msg u t
  ids : (s.issued.map Prod.fst).Nodup
  seen : ∀ i, ∀ v ∈ (s.nodes i).ledger.seenIds.items,
    ∃ u t, v = .str u ∧ (u, t) ∈ s.issued ∧ t ∈ s.news i
  genuine : ∀ i, ∀ t ∈ s.news i, ∃ u, (u, t) ∈ s.issued

theorem kept_blank {L : TaskLedger} (htasks : L.tasks = Dict.empty) (hdisk : L.disk = none) :
    Kept L := by
  refine ⟨fun k t ht => ?_, fun entries he => ?_, fun k => ?_⟩
  · rw [htasks] at ht
    exact (nomatch ht)
  · rw [hdisk] at he
    exact (nomatch he)
  · refine progress_of_tasks ?_ k
    unfold load
    rw [hdisk, htasks]
    rfl

theorem sound_initial (P : Primitives) {s : Fabric ι} (h : s.Initial) : Sound P s where
  kept := fun i => kept_blank (h.tasks i) (h.disk i)
  known := fun i k => by
    unfold progress
    rw [h.tasks i, h.news i]
    rfl
  flight := fun o ho => by
    rw [h.flight] at ho
    exact (List.not_mem_nil ho).elim
  ids := by
    rw [h.issued]
    exact List.nodup_nil
  seen := fun i v hv => by
    rw [h.seenIds i] at hv
    exact (List.not_mem_nil hv).elim
  genuine := fun i t ht => by
    rw [h.news i] at ht
    exact (List.not_mem_nil ht).elim

/-- An id stands for one record. -/
theorem Sound.record_unique {P : Primitives} {s : Fabric ι} (hs : Sound P s) {u : PyStr}
    {t t' : Task} (h : (u, t) ∈ s.issued) (h' : (u, t') ∈ s.issued) : t = t' :=
  (Prod.mk.inj (List.inj_on_of_nodup_map hs.ids h h' rfl)).2

theorem told_iff (s : Fabric ι) (i : ι) (k : Key) :
    Absorb.gathered Task.tells (s.news i) k ≠ ⊥ ↔ s.Told i k := gathered_ne_bot_iff _ k

theorem toldDone_iff (s : Fabric ι) (i : ι) (k : Key) :
    Absorb.gathered Task.tells (s.news i) k = (true : Bool) ↔ s.ToldDone i k :=
  gathered_eq_true_iff _ k

/-- Two nodes hold and have completed the same exactly if they were told the same. -/
theorem Sound.agree_iff {P : Primitives} {s : Fabric ι} (hs : Sound P s) (i j : ι) (k : Key) :
    (Has (s.nodes i).ledger k ↔ Has (s.nodes j).ledger k) ∧
        (Done (s.nodes i).ledger k ↔ Done (s.nodes j).ledger k) ↔
      (s.Told i k ↔ s.Told j k) ∧ (s.ToldDone i k ↔ s.ToldDone j k) := by
  rw [← progress_eq_iff, hs.known i k, hs.known j k, eq_iff_questions, told_iff, told_iff,
    toldDone_iff, toldDone_iff]

/-- Nodes that every update reached agree, whatever the order of the updates. -/
theorem replicated_of_reached {P : Primitives} {s : Fabric ι} (hs : Sound P s) {i j : ι}
    (hi : ∀ e ∈ s.issued, e.2 ∈ s.news i) (hj : ∀ e ∈ s.issued, e.2 ∈ s.news j) (k : Key) :
    (Has (s.nodes i).ledger k ↔ Has (s.nodes j).ledger k) ∧
      (Done (s.nodes i).ledger k ↔ Done (s.nodes j).ledger k) := by
  have hle : ∀ {a b : ι}, (∀ e ∈ s.issued, e.2 ∈ s.news b) → ∀ t ∈ s.news a, t ∈ s.news b := by
    intro a b hb t ht
    rcases hs.genuine a t ht with ⟨u, hu⟩
    exact hb (u, t) hu
  rw [← progress_eq_iff, hs.known i k, hs.known j k]
  exact le_antisymm (Absorb.gathered_mono _ (hle hj) k) (Absorb.gathered_mono _ (hle hi) k)

/-- A stop, a loss or a message of another type. -/
theorem Sound.aside {P : Primitives} {s s' : Fabric ι} (hs : Sound P s)
    (hnodes : s'.nodes = s.nodes) (hissued : s'.issued = s.issued) (hnews : s'.news = s.news)
    (hflight : ∀ o ∈ s'.flight, o ∈ s.flight ∨ Aside o) : Sound P s' := by
  rcases s' with ⟨nodes, running, flight, issued, news⟩
  simp only at hnodes hissued hnews hflight
  rw [hnodes, hissued, hnews]
  refine ⟨hs.kept, hs.known, fun o ho => ?_, hs.ids, hs.seen, hs.genuine⟩
  rcases hflight o ho with hold | haside
  · exact hs.flight o hold
  · exact Or.inl haside

variable [DecidableEq ι]

/-- A step at a node keeps the invariant if its ledger absorbs what the step adds
    to the history. -/
theorem perform_sound {P : Primitives} {s s' : Fabric ι} {i : ι} {node : WhisperNode}
    {flight : List Send} {made : List (PyStr × Task)} {handed : List Task} (hs : Sound P s)
    (h : s.perform i node flight made handed = some s') (hkept : Kept node.ledger)
    (habsorbs : Absorb.Absorbs Task.tells (progress (s.nodes i).ledger) (progress node.ledger)
      (made.map Prod.snd ++ handed))
    (hflight : ∀ o ∈ flight,
      Aside o ∨ ∃ u t, ((u, t) ∈ s.issued ∨ (u, t) ∈ made) ∧ Tells P o.msg u t)
    (hseen : ∀ v ∈ node.ledger.seenIds.items, v ∈ (s.nodes i).ledger.seenIds.items ∨
      ∃ u t, v = .str u ∧ (u, t) ∈ s.issued ∧ t ∈ handed)
    (hhanded : ∀ t ∈ handed, ∃ u, (u, t) ∈ s.issued) : Sound P s' := by
  rcases perform_some h with ⟨⟨hnodup, hfresh⟩, rfl⟩
  -- Only node `i` changes, and only its history grows.
  constructor
  · intro j
    by_cases hj : j = i
    · simp only [hj, Function.update_self]
      exact hkept
    · simp only [Function.update_of_ne hj]
      exact hs.kept j
  · intro j k
    by_cases hj : j = i
    · simp only [hj, Function.update_self]
      exact habsorbs.gathered _ (hs.known i) k
    · simp only [Function.update_of_ne hj]
      exact hs.known j k
  · intro o ho
    rcases hflight o ho with haside | ⟨u, t, hissued, htells⟩
    · exact Or.inl haside
    · exact Or.inr ⟨u, t, List.mem_append.mpr hissued, htells⟩
  · rw [List.map_append, List.nodup_append]
    refine ⟨hs.ids, hnodup, fun u hu v hv huv => ?_⟩
    rw [huv] at hu
    exact (hfresh v hv).2 hu
  · -- An id that was new stands for a record that was handed over.
    intro j v hv
    by_cases hj : j = i
    · simp only [hj, Function.update_self] at hv ⊢
      rcases hseen v hv with hold | ⟨u, t, hu, hissued, ht⟩
      · rcases hs.seen i v hold with ⟨u, t, hu, hissued, ht⟩
        exact ⟨u, t, hu, List.mem_append_left _ hissued, List.mem_append_left _ ht⟩
      · exact ⟨u, t, hu, List.mem_append_left _ hissued,
          List.mem_append_right _ (List.mem_append_right _ ht)⟩
    · simp only [Function.update_of_ne hj] at hv ⊢
      rcases hs.seen j v hv with ⟨u, t, hu, hissued, ht⟩
      exact ⟨u, t, hu, List.mem_append_left _ hissued, ht⟩
  · intro j t ht
    by_cases hj : j = i
    · simp only [hj, Function.update_self] at ht
      rcases List.mem_append.mp ht with hold | hnew
      · rcases hs.genuine i t hold with ⟨u, hu⟩
        exact ⟨u, List.mem_append_left _ hu⟩
      · rcases List.mem_append.mp hnew with hmade | hgot
        · rcases List.mem_map.mp hmade with ⟨⟨u, t'⟩, hmem, rfl⟩
          exact ⟨u, List.mem_append_right _ hmem⟩
        · rcases hhanded t hgot with ⟨u, hu⟩
          exact ⟨u, List.mem_append_left _ hu⟩
    · simp only [Function.update_of_ne hj] at ht
      rcases hs.genuine j t ht with ⟨u, hu⟩
      exact ⟨u, List.mem_append_left _ hu⟩

/-- A deed of a node, with the copies it sends. -/
theorem deed_sound {P : Primitives} (hP : P.Lawful) {s s' : Fabric ι} {i : ι} {node : WhisperNode}
    {e : TaskLedger × List Output} {M : MembershipLayer} {flight : List Send}
    {env : Output → NodeEnv} (hs : Sound P s) (hdeed : Deed (s.nodes i).ledger e)
    (hnode : node.ledger = e.1) (hflight : ∀ o ∈ flight, o ∈ s.flight)
    (h : s.perform i node (flight ++ transmitEach P env M e.1 e.2) (letters env e.2) [] = some s') :
    Sound P s' := by
  have hids : ∀ u ∈ (letters env e.2).map Prod.fst, u ≠ [] := fun u hu =>
    ((perform_some h).1.2 u hu).1
  refine perform_sound hs h ?_ ?_ ?_ ?_ (fun t ht => (List.not_mem_nil ht).elim)
  · rw [hnode]
    exact hdeed.kept
  · rw [hnode, List.append_nil, records_letters]
    exact hdeed.absorbs
  · intro o ho
    rcases List.mem_append.mp ho with hold | hnew
    · rcases hs.flight o (hflight o hold) with haside | ⟨u, t, hissued, htells⟩
      · exact Or.inl haside
      · exact Or.inr ⟨u, t, Or.inl hissued, htells⟩
    · rcases transmit_tells hP env M e.1 e.2 hdeed.regular hdeed.out hids o hnew with
        haside | ⟨u, t, hmade, htells⟩
      · exact Or.inl haside
      · exact Or.inr ⟨u, t, Or.inr hmade, htells⟩
  · rw [hnode]
    exact fun v hv => Or.inl (hdeed.seen v hv)

theorem kept_same {L L' : TaskLedger} (hL : Kept L) (htasks : L'.tasks = L.tasks)
    (hdisk : L'.disk = L.disk) : Kept L' := by
  refine hL.next (fun k t ht => ?_) (Or.inl hdisk) (Or.inr (progress_of_tasks htasks))
  rw [htasks] at ht
  exact hL.filed k t ht

/-- A step that leaves the records alone and sends no updates. -/
theorem idle_sound {P : Primitives} {s s' : Fabric ι} {i : ι} {node : WhisperNode}
    {flight : List Send} (hs : Sound P s) (htasks : node.ledger.tasks = (s.nodes i).ledger.tasks)
    (hdisk : node.ledger.disk = (s.nodes i).ledger.disk)
    (hseen : node.ledger.seenIds = (s.nodes i).ledger.seenIds)
    (hflight : ∀ o ∈ flight, o ∈ s.flight ∨ Aside o)
    (h : s.perform i node flight [] [] = some s') : Sound P s' := by
  refine perform_sound hs h (kept_same (hs.kept i) htasks hdisk) ?_ ?_ ?_
    (fun t ht => (List.not_mem_nil ht).elim)
  · exact Absorb.absorbs_of_known _ (progress_of_tasks htasks)
      (fun t ht => (List.not_mem_nil ht).elim)
  · intro o ho
    rcases hflight o ho with hold | haside
    · rcases hs.flight o hold with haside | ⟨u, t, hissued, htells⟩
      · exact Or.inl haside
      · exact Or.inr ⟨u, t, Or.inl hissued, htells⟩
    · exact Or.inl haside
  · rw [hseen]
    exact fun v hv => Or.inl hv

theorem update_seen (P : Primitives) {L : TaskLedger} {msg : Msg} {u : PyStr}
    (hid : get msg (lit "msg_id") = .str u) (hseen : .str u ∈ L.seenIds.items) :
    (L.handleLedgerUpdate P msg).ledger = L := by
  have hin : pyIn (get msg (lit "msg_id")) L.seenIds.items = true := by
    rw [hid]
    exact List.any_eq_true.mpr ⟨_, hseen, pyEq_refl _⟩
  unfold handleLedgerUpdate
  rw [if_pos (Or.inr hin)]

/-- The delivery of an update. One that was seen has been absorbed. -/
theorem update_sound {P : Primitives} {s s' : Fabric ι} {i : ι} {node : WhisperNode} {o : Send}
    {flight out : List Send} (hs : Sound P s) {u : PyStr} {t : Task} (hissued : (u, t) ∈ s.issued)
    (htells : Tells P o.msg u t)
    (hnode : node.ledger = ((s.nodes i).ledger.handleLedgerUpdate P o.msg).ledger)
    (hflight : ∀ o ∈ flight, o ∈ s.flight) (hout : Relays o.msg out)
    (h : s.perform i node (flight ++ out) [] [t] = some s') : Sound P s' := by
  -- What is sent on tells the same record under the same id.
  have hrelays : ∀ c ∈ flight ++ out,
      Aside c ∨ ∃ u t, ((u, t) ∈ s.issued ∨ (u, t) ∈ ([] : List (PyStr × Task))) ∧
        Tells P c.msg u t := by
    intro c hc
    rcases List.mem_append.mp hc with hold | hnew
    · rcases hs.flight c (hflight c hold) with haside | ⟨u', t', hissued', htells'⟩
      · exact Or.inl haside
      · exact Or.inr ⟨u', t', Or.inl hissued', htells'⟩
    · exact Or.inr ⟨u, t, Or.inl hissued, tells_relayed (hout.2 c hnew) htells⟩
  have hhanded : ∀ t' ∈ [t], ∃ u, (u, t') ∈ s.issued := fun t' ht' => by
    rw [List.mem_singleton.mp ht']
    exact ⟨u, hissued⟩
  rcases htells with ⟨taskId, x, hmsg, hid, rfl, hreg⟩
  by_cases hseen : .str u ∈ (s.nodes i).ledger.seenIds.items
  · -- The id stands for this record, which the history has already.
    have hsame : node.ledger = (s.nodes i).ledger := by
      rw [hnode]
      exact update_seen P (by rw [← hmsg, x.msg_id, hid]) hseen
    have hknown : x.record ∈ s.news i := by
      rcases hs.seen i _ hseen with ⟨u', t', hu, hissued', ht'⟩
      rw [← PyVal.str.inj hu] at hissued'
      rw [hs.record_unique hissued hissued']
      exact ht'
    refine perform_sound hs h (by rw [hsame]; exact hs.kept i) ?_ hrelays ?_ hhanded
    · rw [hsame]
      refine Absorb.absorbs_of_known _ (fun _ => rfl) (fun t' ht' k => ?_)
      rw [List.mem_singleton.mp ht', hs.known i k]
      exact Absorb.le_gathered _ hknown k
    · rw [hsame]
      exact fun v hv => Or.inl hv
  · -- A new id: the record is merged, and its id is remembered.
    rw [← hid] at hseen
    rw [← hmsg] at hnode
    refine perform_sound hs h ?_ ?_ hrelays ?_ hhanded
    · rw [hnode]
      exact update_kept (hs.kept i) x hreg hseen
    · rw [hnode]
      exact update_absorbs (hs.kept i).filed x hreg hseen
    · intro v hv
      rw [hnode] at hv
      rcases mem_seenIds_update P _ x.msg v hv with hold | hnew
      · exact Or.inl hold
      · rw [x.msg_id, hid] at hnew
        exact Or.inr ⟨u, x.record, hnew, hissued, List.mem_singleton.mpr rfl⟩

/-- What the other threads do leaves the records and the file alone. -/
theorem work_ledger {P : Primitives} {s s' : WhisperNode} {e : NodeEvent} (hwork : e.isWork = true)
    (h : s.step P e = some s') : s'.ledger.tasks = s.ledger.tasks ∧
      s'.ledger.disk = s.ledger.disk ∧ s'.ledger.seenIds = s.ledger.seenIds := by
  cases e with
  | converge =>
      rw [← Option.some.inj h]
      rcases s.converge_cases with hsame | ⟨_, _, _, hadopts⟩
      · rw [hsame]
        exact ⟨rfl, rfl, rfl⟩
      · rw [hadopts]
        dsimp only
        unfold TaskLedger.converge
        split
        · exact ⟨rfl, rfl, rfl⟩
        · exact ⟨rfl, rfl, rfl⟩
  -- No other work touches the ledger.
  | openAuction taskId =>
      rw [← Option.some.inj h]
      exact ⟨rfl, rfl, rfl⟩
  | closeAuction taskId =>
      rw [← Option.some.inj h]
      exact ⟨rfl, rfl, rfl⟩
  | openShares k needed own =>
      rw [← Option.some.inj h]
      exact ⟨rfl, rfl, rfl⟩
  | closeShares k =>
      rw [← Option.some.inj h]
      exact ⟨rfl, rfl, rfl⟩
  | drainResults =>
      rw [← Option.some.inj h]
      exact ⟨rfl, rfl, rfl⟩
  | _ => exact (nomatch hwork)

/-- The delivery of a message of any type. -/
theorem deliver_sound {P : Primitives} (hP : P.Lawful) {s s' : Fabric ι} {i : ι} {n : Nat}
    {env : NodeEnv} {fromPeer : PyVal} {o : Send} (hs : Sound P s) (hn : s.flight[n]? = some o)
    (hcareful : get o.msg (lit "type") = .str (lit "task_submit") →
      CarefulSubmission (s.nodes i).ledger o.msg)
    (h : s.perform i ((s.nodes i).receive P env fromPeer o.msg).1
      (s.flight.eraseIdx n ++ ((s.nodes i).receive P env fromPeer o.msg).2)
      ((s.nodes i).issues P env o.msg) (heard o.msg) = some s') : Sound P s' := by
  have hrest : ∀ c ∈ s.flight.eraseIdx n, c ∈ s.flight := fun c hc => List.mem_of_mem_eraseIdx hc
  -- An update tells an issued record; any other message can only ask for a call.
  by_cases hupdate : get o.msg (lit "type") = .str (lit "ledger_update")
  · rcases hs.flight o (List.mem_of_getElem? hn) with haside | ⟨u, t, hissued, htells⟩
    · exact absurd hupdate haside
    · have hnone : (s.nodes i).issues P env o.msg = [] := by
        refine issues_none ?_ ?_
        · rw [hupdate]
          exact fun hc => absurd (PyVal.str.inj hc) (by decide)
        · rw [hupdate]
          exact fun hc => absurd (PyVal.str.inj hc) (by decide)
      rw [hnone, heard_tells htells hupdate] at h
      refine update_sound hs hissued htells (receive_update P _ env fromPeer hupdate) hrest ?_ h
      refine receive_relays P _ env fromPeer o.msg ?_
      rw [isGossip, hupdate, pyEq_refl, Bool.or_true]
  · have haside : Aside o := hupdate
    rw [heard_aside haside] at h
    by_cases hask : get o.msg (lit "type") = .str (lit "task_submit") ∨
        get o.msg (lit "type") = .str (lit "task_award")
    · unfold WhisperNode.issues at h
      rcases receive_asks P (s.nodes i) env fromPeer hask with ⟨hnone, hrun⟩ | ⟨e, hsome, hrun⟩
      · rw [hrun, hnone] at h
        refine idle_sound hs rfl rfl rfl (fun c hc => ?_) h
        rw [List.append_nil] at hc
        exact Or.inl (hrest c hc)
      · rw [hrun, hsome, transmit_eq] at h
        exact deed_sound hP hs (request_deed (hs.kept i) hsome hcareful) rfl hrest h
    · rw [not_or] at hask
      rw [issues_none hask.1 hask.2] at h
      have hledger := receive_other P (s.nodes i) env fromPeer hupdate hask.1 hask.2
      refine idle_sound hs (by rw [hledger]) (by rw [hledger]) (by rw [hledger]) (fun c hc => ?_) h
      rcases List.mem_append.mp hc with hold | hnew
      · exact Or.inl (hrest c hold)
      · exact Or.inr (receive_aside P _ env fromPeer hupdate hask.1 hask.2 c hnew)

/-- A careful event keeps the invariant. -/
theorem step_sound {P : Primitives} (hP : P.Lawful) {s s' : Fabric ι} {e : FabricEvent ι}
    (hs : Sound P s) (hcareful : s.Careful e) (h : s.step P e = some s') : Sound P s' := by
  cases e with
  | deliver i n env fromPeer =>
      simp only [step] at h
      cases hn : s.flight[n]? with
      | none =>
          rw [hn] at h
          exact (nomatch h)
      | some o =>
          simp only [hn] at h
          split at h
          · exact deliver_sound hP hs hn (hcareful o hn) h
          · exact (nomatch h)
  | call i c env =>
      simp only [step] at h
      split at h
      · exact deed_sound hP hs (run_deed P (hs.kept i) hcareful) rfl (fun o ho => ho) h
      · exact (nomatch h)
  | beat i b =>
      simp only [step] at h
      split at h
      · refine idle_sound hs ?_ ?_ ?_ (fun o ho => ?_) h
        · rfl
        · rfl
        · rfl
        rcases List.mem_append.mp ho with hold | hnew
        · exact Or.inl hold
        · exact Or.inr ((beat_aside b (s.nodes i).membership).2 o hnew trivial)
      · exact (nomatch h)
  | work i e =>
      simp only [step] at h
      split at h
      · rename_i hrun
        rcases Option.bind_eq_some_iff.mp h with ⟨node, hnode, hperform⟩
        -- What an auction or a collection does is not told to anybody.
        rcases work_ledger hrun.2 hnode with ⟨htasks, hdisk, hseen⟩
        exact idle_sound hs htasks hdisk hseen (fun o ho => Or.inl ho) hperform
      · exact (nomatch h)
  | post o =>
      rw [← Option.some.inj h]
      refine hs.aside rfl rfl rfl (fun c hc => ?_)
      rcases List.mem_append.mp hc with hold | hnew
      · exact Or.inl hold
      · rw [List.mem_singleton.mp hnew]
        exact Or.inr hcareful
  | lose n =>
      simp only [step] at h
      split at h
      · rw [← Option.some.inj h]
        exact hs.aside rfl rfl rfl (fun c hc => Or.inl (List.mem_of_mem_eraseIdx hc))
      · exact (nomatch h)
  | stop i =>
      rw [← Option.some.inj h]
      exact hs.aside rfl rfl rfl (fun c hc => Or.inl hc)
  | start i now env =>
      simp only [step] at h
      split at h
      · exact (nomatch h)
      · -- The file holds the progress, and the recovery of leases adds none.
        rcases load_kept (hs.kept i) with ⟨hload, hsame⟩
        have hrun := run_deed P (c := .recoverIdentity now) hload trivial
        have hdeed : Deed (s.nodes i).ledger
            ((Call.recoverIdentity now).run P (s.nodes i).ledger.load) := by
          refine ⟨hrun.kept, fun k => ?_, hrun.regular, hrun.out, fun v hv => ?_⟩
          · rw [← hsame k]
            exact hrun.absorbs k
          · exact (List.not_mem_nil (hrun.seen v hv)).elim
        have hstarted : Sound P { s with running := Function.update s.running i true } :=
          hs.aside rfl rfl rfl (fun c hc => Or.inl hc)
        exact deed_sound hP hstarted hdeed rfl (fun o ho => ho) h

/-! ## Runs -/

/-- In a careful run the progress of a ledger is what its node was told. -/
theorem news_run {P : Primitives} (hP : P.Lawful) {s t : Fabric ι} {es : List (FabricEvent ι)}
    (hinit : s.Initial) (hcareful : Machine.Along (step P) Careful s es)
    (hrun : Machine.run (step P) s es = some t) : Sound P t :=
  Machine.invariant_run (step P) (Sound P) Careful
    (fun _ _ _ hs hok hstep => step_sound hP hs hok hstep) (sound_initial P hinit) hcareful hrun

/-- A careful run is replicated throughout exactly if, whenever nothing is in
    flight, nodes that see each other alive were told of the same tasks and of
    the same completed ones. -/
theorem replication_iff {P : Primitives} (hP : P.Lawful) {s : Fabric ι} (hinit : s.Initial)
    (es : List (FabricEvent ι)) (hcareful : Machine.Along (step P) Careful s es) :
    Machine.Throughout (step P) Replicated s es ↔ Machine.Throughout (step P) SameNews s es := by
  refine Machine.throughout_congr_along (step P) (Sound P) Replicated SameNews Careful
    (fun _ _ _ hs hok hstep => step_sound hP hs hok hstep) (fun s hs => ?_) s es
    (sound_initial P hinit) hcareful
  constructor
  · intro h hrest i j hpair k
    exact (hs.agree_iff i j k).mp (h hrest i j hpair k)
  · intro h hrest i j hpair k
    exact (hs.agree_iff i j k).mpr (h hrest i j hpair k)

end Fabric

/-! ## A node that joins late -/

namespace Late

attribute [local instance] Flood.neZero_two

open Fabric

def key (i : Fin 2) : PyStr := if i = 0 then lit "a" else lit "b"

/-- Two nodes that have not started. -/
def fabric : Fabric (Fin 2) where
  nodes := fun i =>
    { membership := { ourKey := key i }
      ledger := { ourKey := key i }
      runtime := { shardId := 1 } }
  running := fun _ => false
  flight := []
  issued := []
  news := fun _ => []

def env (_ : Output) : NodeEnv := NodeEnv.plain

def submission : FabricEvent (Fin 2) :=
  .call 0 (.submitTask SubmitEnv.plain (lit "t") (lit "p") 1 .none) env

/-- Node `b` starts, sees node `a` in its topology and greets it. -/
def joining : List (FabricEvent (Fin 2)) :=
  [.start 1 1 env, .beat 1 (.sync MemberEnv.plain [lit "a"]),
    .deliver 0 0 NodeEnv.plain (.str (lit "b"))]

/-- Node `b` joins after a submission at node `a`. -/
def late : List (FabricEvent (Fin 2)) := .start 0 0 env :: submission :: joining

/-- Node `b` joins before it, and the update goes to `b` and comes back. -/
def early : List (FabricEvent (Fin 2)) := .start 0 0 env :: joining ++
  [submission, .deliver 1 0 NodeEnv.plain (.str (lit "a")),
    .deliver 0 0 NodeEnv.plain (.str (lit "b"))]

/-- The nodes are at rest, see each other, and the first one holds the task. -/
def AtRest (s : Fabric (Fin 2)) : Prop :=
  s.flight = [] ∧ s.Paired 0 1 ∧ Has (s.nodes 0).ledger (.str (lit "t"))

instance (s : Fabric (Fin 2)) : Decidable (AtRest s) := inferInstanceAs (Decidable (_ ∧ _ ∧ _))

theorem fabric_initial : fabric.Initial :=
  ⟨fun _ => rfl, fun _ => rfl, fun _ => rfl, rfl, rfl, fun _ => rfl⟩

/-- Nothing was lost and nothing is in flight, both nodes run and see each other
    as alive, and only one of them holds the task. -/
theorem unreplicated : fabric.Initial ∧
    Machine.Along (Fabric.step reference) Fabric.Careful fabric late ∧
    ∃ t, Machine.run (Fabric.step reference) fabric late = some t ∧ AtRest t ∧
      ¬ Has (t.nodes 1).ledger (.str (lit "t")) ∧ ¬ t.Replicated := by
  have hrun : (Machine.run (Fabric.step reference) fabric late).map (fun t =>
      decide (AtRest t ∧ ¬ Has (t.nodes 1).ledger (.str (lit "t")))) = some true := by
    decide +kernel
  rcases Option.map_eq_some_iff.mp hrun with ⟨t, ht, hfacts⟩
  rcases of_decide_eq_true hfacts with ⟨hrest, hmissing⟩
  refine ⟨fabric_initial, by decide +kernel, t, ht, hrest, hmissing, fun h => ?_⟩
  exact hmissing ((h hrest.1 0 1 hrest.2.1 _).1.mp hrest.2.2)

/-- The run in which `b` joins first ends with the task at both nodes. -/
theorem early_replicated : (∃ t, Machine.run (Fabric.step reference) fabric early = some t ∧
      AtRest t ∧ Has (t.nodes 1).ledger (.str (lit "t"))) ∧
    (Machine.Throughout (Fabric.step reference) Fabric.Replicated fabric early ↔
      Machine.Throughout (Fabric.step reference) Fabric.SameNews fabric early) := by
  have hrun : (Machine.run (Fabric.step reference) fabric early).map (fun t =>
      decide (AtRest t ∧ Has (t.nodes 1).ledger (.str (lit "t")))) = some true := by
    decide +kernel
  rcases Option.map_eq_some_iff.mp hrun with ⟨t, ht, hfacts⟩
  exact ⟨⟨t, ht, of_decide_eq_true hfacts⟩,
    Fabric.replication_iff reference_lawful fabric_initial early (by decide +kernel)⟩

end Late

end WhisperNet
