import WhisperNet.Ledger.Atomicity
import WhisperNet.Lib.FirstLeast
import WhisperNet.Python.Double
import WhisperNet.Runtime.Node
import WhisperNet.Runtime.RoundTrip

/-!
# The Auction of an Encrypted Job

A node that is handed a job by a peer asks for bids and awards the job to the
best of them. Three parts of the program have a say in what becomes of a payload
that was sealed to one node: the ledger picks the key of the home node, the
auction picks the least price with a bonus of half a cent for the home shard, and
the execution completes the task with a text where the payload does not open.
The auction does not look at the encryption, so a bid that is cheap enough takes
the job from the only node that can do it.

## Main definitions

* `bidKey`, `bidSum`, `ranked`: The order of the bids.
* `Wins`: The bid that comes first.
* `WhisperNode.runAuction`: The award of an auction.
* `AwardedRun`: An execution that an award leads to.
* `Sale`: A sealed job in an auction that the home node takes part in.
* `Takes`: A node that can claim and start the job.
* `Opens`: A node whose key opens the payload.

## Theorems

* `wins_iff`: Among prices that are numbers it is the first one with the least sum.
* `runAuction_winner`: Who the award goes to.
* `takes_of_awardedRun`, `awardedRun_of_takes`: Which nodes an award sets to work.
* `unopened_iff`: What they do with the payload.
* `not_wastes_iff`: When no job is wasted.
* `not_wastes_of_home_least`: A home node that is not outbid by more than the bonus.
-/

namespace WhisperNet

open TaskLedger
open PyVal (get)

/-! ## Bids and the award -/

/-- `_bid_key`, with the bonus for the home node of the shard. The price and the
    bonus are floats, and so is their sum: a decimal stands for the float it is read
    as, and what lies between two floats is lost. -/
def bidKey (shardId : Int) (b : Bid) : PyFloat :=
  match b.priceAxl with
  | .num q =>
    .num (double (double q + if pyEq b.shardId (.int shardId) then 0 else double (5 / 1000)))
  | .nan => .nan

/-- The sum that stands for a bid whose price is a number. -/
def bidSum (shardId : Int) (b : Bid) : ℚ := (bidKey shardId b).value

section Order

variable (F : FloatSort Bid) (shardId : Int) (bids : List Bid)

/-- `bids.sort(key=_bid_key)`. -/
def ranked : List Bid := F.sort (bidKey shardId) bids

/-- The bid that comes first. -/
def Wins (b : Bid) : Prop := (ranked F shardId bids).head? = some b

variable {shardId bids}

theorem bidKey_ne_nan {b : Bid} (h : b.priceAxl ≠ .nan) : bidKey shardId b ≠ .nan := by
  unfold bidKey
  cases hprice : b.priceAxl with
  | num q => simp only [ne_eq, reduceCtorEq, not_false_eq_true]
  | nan => exact absurd hprice h

/-- Among prices that are numbers the first of the bids with the least sum wins. -/
theorem wins_iff (h : ∀ b ∈ bids, b.priceAxl ≠ .nan) (b : Bid) :
    Wins F shardId bids b ↔ FirstLeast (bidSum shardId) bids b := by
  unfold Wins ranked
  rw [F.stable _ _ (fun x hx => bidKey_ne_nan (h x hx))]
  exact head?_insertionSort_iff (bidSum shardId) bids b

/-- What wins is one of the bids. -/
theorem Wins.mem {b : Bid} (h : Wins F shardId bids b) : b ∈ bids :=
  (F.perm (bidKey shardId) bids).subset (List.mem_of_mem_head? h)

/-- One of the bids wins, if there are any. -/
theorem exists_wins (h : bids ≠ []) : ∃ b, Wins F shardId bids b := by
  cases hw : (ranked F shardId bids).head? with
  | some b => exact ⟨b, hw⟩
  | none =>
      have hnil := (F.perm (bidKey shardId) bids).symm
      rw [show F.sort (bidKey shardId) bids = [] from List.head?_eq_none_iff.mp hw,
        List.perm_nil] at hnil
      exact absurd hnil h

end Order

/-- The `task_award` for a bid. A value cannot be NaN, so that price is left out; nobody
    reads it but a log line. -/
def awardMsg (ourKey uuid taskId : PyStr) (shardId : Int) (winner : Bid) : Msg :=
  [(lit "type", .str (lit "task_award")),
   (lit "msg_id", .str uuid),
   (lit "from", .str ourKey),
   (lit "task_id", .str taskId),
   (lit "winner", winner.sender),
   (lit "price_axl", match winner.priceAxl with
     | .num q => .float q
     | .nan => .none),
   (lit "shard_id", .int shardId)]

namespace WhisperNode

variable (F : FloatSort Bid) (s : WhisperNode)

/-- The bid of a node in its own auction. -/
def ownBid : Bid where
  sender := .str s.membership.ourKey
  priceAxl := .num s.membership.ourPriceAxl
  capabilities := .list (s.membership.ourCapabilities.map PyVal.str)
  shardId := .int s.runtime.shardId

/-- The bids when the wait is over, with the own one at the end. -/
def candidates (taskId : PyStr) : List Bid :=
  (match s.bidCollections.get? (.str taskId) with
    | some col => col.bids
    | none => []) ++ [s.ownBid]

/-- `_run_auction` after the wait: who is sent which award. The log line before
    it slices the key of the winner. -/
def runAuction (uuid taskId : PyStr) (shardId : Int) : Except PyErr (PyVal × Msg) :=
  match (ranked F shardId (s.candidates taskId)).head? with
  | none => .error .indexError
  | some winner =>
    if winner.sender.sliceable then
      .ok (winner.sender, awardMsg s.membership.ourKey uuid taskId shardId winner)
    else .error .typeError

/-- The award goes to the bid that wins. -/
theorem runAuction_winner (uuid taskId k : PyStr) (shardId : Int) (msg : Msg) :
    s.runAuction F uuid taskId shardId = .ok (.str k, msg) ↔
      ∃ winner, Wins F shardId (s.candidates taskId) winner ∧ winner.sender = .str k ∧
        msg = awardMsg s.membership.ourKey uuid taskId shardId winner := by
  unfold runAuction Wins
  constructor
  · intro h
    cases hw : (ranked F shardId (s.candidates taskId)).head? with
    | none =>
        rw [hw] at h
        simp only [reduceCtorEq] at h
    | some winner =>
        rw [hw] at h
        by_cases hslice : winner.sender.sliceable = true
        · simp only [if_pos hslice, Except.ok.injEq, Prod.mk.injEq] at h
          exact ⟨winner, rfl, h.1, h.2.symm⟩
        · simp only [if_neg hslice, reduceCtorEq] at h
  · rintro ⟨winner, hw, hsender, hmsg⟩
    -- The log slices the key of the winner, which is a string.
    have hslice : winner.sender.sliceable = true := by
      rw [hsender]
      rfl
    rw [hw]
    simp only [if_pos hslice]
    rw [hsender, hmsg]

end WhisperNode

/-! ## What an award sets going -/

/-- An event in which no execution is awarded, started or ended. -/
def Elsewhere : ThreadEvent → Prop
  | .award .. | .enter _ | .settle _ | .finish .. | .leave _ | .add | .spawn => False
  | _ => True

/-- An award leads to an execution with this index, which has found a record under
    the lease of the node. Other threads go on before the execution is entered and
    while it waits. -/
def AwardedRun (H : Host) (s : Process) (msg : Msg) (now : ℚ) (taskId : PyStr) (i : Nat)
    (u : Process) (task : Task) : Prop :=
  ∃ (sends : Bool) (as as' : List ThreadEvent) (s₁ s₂ : Process),
    (∀ a ∈ as, Elsewhere a) ∧ (∀ a ∈ as', Elsewhere a) ∧
    Machine.run (Process.step H) s (.act (.award msg now sends) :: as.map .act) = some s₁ ∧
    i = s₁.executions.length ∧
    Machine.run (Process.step H) s₁ (.act (.enter taskId) :: as'.map .act) = some s₂ ∧
    Process.step H s₂ (.act (.settle i)) = some u ∧
    u.executions[i]? = some ⟨taskId, .running task⟩

/-- The threads that execute are the same in both states. -/
structure SameThreads (s s' : Process) : Prop where
  executing : s'.executing = s.executing
  awarded : s'.awarded = s.awarded
  executions : s'.executions = s.executions

theorem SameThreads.trans {s s' s'' : Process} (h : SameThreads s s') (h' : SameThreads s' s'') :
    SameThreads s s'' where
  executing := h'.executing.trans h.executing
  awarded := h'.awarded.trans h.awarded
  executions := h'.executions.trans h.executions

section Threads

variable {H : Host} {s s' : Process}

theorem act_elsewhere {a : ThreadEvent} (ha : Elsewhere a) (hact : s.act H a = some s') :
    SameThreads s s' := by
  cases a with
  -- These events are none of another thread.
  | award msg now sends => exact ha.elim
  | enter taskId => exact ha.elim
  | settle i => exact ha.elim
  | finish i job => exact ha.elim
  | leave i => exact ha.elim
  | add => exact ha.elim
  | spawn => exact ha.elim
  -- The scan thread writes the ledger and its own place, nothing more.
  | scan now =>
      simp only [Process.act] at hact
      split at hact
      · split at hact
        · rw [← Option.some.inj hact]
          exact ⟨rfl, rfl, rfl⟩
        · rw [← Option.some.inj hact]
          exact ⟨rfl, rfl, rfl⟩
      · simp only [reduceCtorEq] at hact
  | renew now sends =>
      simp only [Process.act] at hact
      split at hact
      · rw [← Option.some.inj hact]
        exact ⟨rfl, rfl, rfl⟩
      · simp only [reduceCtorEq] at hact
  | select view now =>
      simp only [Process.act] at hact
      split at hact
      · split at hact
        · rw [← Option.some.inj hact]
          exact ⟨rfl, rfl, rfl⟩
        · rw [← Option.some.inj hact]
          exact ⟨rfl, rfl, rfl⟩
      · simp only [reduceCtorEq] at hact
  | check =>
      simp only [Process.act] at hact
      split at hact
      · rw [← Option.some.inj hact]
        exact ⟨rfl, rfl, rfl⟩
      · rw [← Option.some.inj hact]
        exact ⟨rfl, rfl, rfl⟩
      · simp only [reduceCtorEq] at hact
  | claim now sends =>
      simp only [Process.act] at hact
      split at hact
      · rw [← Option.some.inj hact]
        exact ⟨rfl, rfl, rfl⟩
      · simp only [reduceCtorEq] at hact
  -- The other threads only call the ledger.
  | update msg =>
      rw [← Option.some.inj hact]
      exact ⟨rfl, rfl, rfl⟩
  | submit env taskId payload shardId submitterKey =>
      rw [← Option.some.inj hact]
      exact ⟨rfl, rfl, rfl⟩
  | releaseAll =>
      rw [← Option.some.inj hact]
      exact ⟨rfl, rfl, rfl⟩
  | converge consensus =>
      rw [← Option.some.inj hact]
      exact ⟨rfl, rfl, rfl⟩

theorem run_elsewhere (as : List ThreadEvent) (has : ∀ a ∈ as, Elsewhere a)
    (hrun : Machine.run (Process.step H) s (as.map .act) = some s') : SameThreads s s' := by
  induction as generalizing s with
  | nil =>
      rw [← Option.some.inj hrun]
      exact ⟨rfl, rfl, rfl⟩
  | cons a as ih =>
      rcases Option.bind_eq_some_iff.mp hrun with ⟨u, hstep, hrest⟩
      rw [Process.step] at hstep
      split at hstep
      · exact (act_elsewhere (has a (List.mem_cons_self ..)) hstep).trans
          (ih (fun b hb => has b (List.mem_cons_of_mem _ hb)) hrest)
      · simp only [reduceCtorEq] at hstep

/-- A step of a running node is the step of one of its threads. -/
theorem step_act {a : ThreadEvent} (h : Process.step H s (.act a) = some s') :
    s.up = true ∧ s.act H a = some s' := by
  rw [Process.step] at h
  split at h
  · exact ⟨‹_›, h⟩
  · simp only [reduceCtorEq] at h

end Threads

/-! ## Who an award sets to work -/

/-- A node that can claim the task and start on it. -/
structure Takes (s : Process) (taskId : PyStr) (now : ℚ) : Prop where
  up : s.up = true
  named : taskId ≠ []
  idle : taskId ∉ s.executing
  free : ∃ task, s.ledger.find? taskId = some task ∧ Free task now ∧
    (s.ledger.ourKey ++ taskId).any isSurrogate = false ∧ task.version.asNum.isSome = true

/-- A node that has a job as it was submitted, if it has heard of it, and has not
    been awarded it before. -/
structure Replica (s : Process) (taskId : PyStr) (job : Task) : Prop where
  keys : KeysMatch s.ledger
  genuine : ∀ task, s.ledger.find? taskId = some task → SameJob task job
  fresh : taskId ∉ s.awarded

section Awards

variable {H : Host} {s : Process} {msg : Msg} {now : ℚ} {taskId : PyStr} {task job : Task}

/-- The handler of an award starts and ends no execution. A task that it adds to
    the awarded ones has been claimed. -/
theorem handleTaskAward_threads (s : Process) (msg : Msg) (now : ℚ) (sends : Bool) :
    (s.handleTaskAward msg now sends).executing = s.executing ∧
      (s.handleTaskAward msg now sends).executions = s.executions ∧
      ∀ taskId ∈ (s.handleTaskAward msg now sends).awarded, taskId ∈ s.awarded ∨
        taskId ≠ [] ∧ (s.ledger.claimTask taskId now).ret = .ok true := by
  unfold Process.handleTaskAward
  split
  · rename_i taskId _
    split
    · exact ⟨rfl, rfl, fun _ h => Or.inl h⟩
    · rename_i hours
      refine ⟨rfl, rfl, fun taskId' h => ?_⟩
      dsimp only at h
      split at h
      · rename_i hsent
        rcases List.mem_cons.mp h with h | h
        · -- What was sent is what the claim returned.
          rw [h]
          refine Or.inr ⟨fun hnil => hours (Or.inl hnil), ?_⟩
          unfold Outcome.sent at hsent
          split at hsent
          · exact hsent
          · simp only [reduceCtorEq] at hsent
        · exact Or.inl h
      · exact Or.inl h
  · exact ⟨rfl, rfl, fun _ h => Or.inl h⟩

/-- Only a node that can claim the task and start on it works on it after an
    award. -/
theorem takes_of_awardedRun {i : Nat} {u : Process} (hfresh : taskId ∉ s.awarded)
    (h : AwardedRun H s msg now taskId i u task) : Takes s taskId now := by
  rcases h with ⟨sends, as, as', s₁, s₂, has, has', hrun₁, hi, hrun₂, hsettle, _⟩
  rcases Option.bind_eq_some_iff.mp hrun₁ with ⟨v, haward, hrest⟩
  rcases step_act haward with ⟨hup, hact⟩
  rw [Process.act, Option.some.injEq] at hact
  rcases handleTaskAward_threads s msg now sends with ⟨hexecuting, _, hawarded⟩
  rw [hact] at hexecuting hawarded
  have hsame := run_elsewhere as has hrest
  -- The thread of the award enters.
  rcases Option.bind_eq_some_iff.mp hrun₂ with ⟨w, henter, hrest'⟩
  have hact' := (step_act henter).2
  have hsame' := run_elsewhere as' has' hrest'
  rw [Process.act] at hact'
  split at hact'
  · rename_i hmem
    rw [hsame.awarded] at hmem
    rcases (hawarded taskId hmem).resolve_left hfresh with ⟨hne, hok⟩
    refine ⟨hup, hne, fun hbusy => ?_, (claimTask_true_iff _ _ _).mp hok⟩
    -- A thread that finds the task executing returns, and nothing settles.
    rw [← hexecuting, ← hsame.executing] at hbusy
    rw [Option.some.injEq, Process.enter] at hact'
    simp only [if_pos hbusy] at hact'
    have hnone : s₂.executions[i]? = none := by
      rw [hsame'.executions, ← hact', hi]
      exact List.getElem?_eq_none le_rfl
    have hstuck := (step_act hsettle).2
    simp only [Process.act, hnone, reduceCtorEq] at hstuck
  · simp only [reduceCtorEq] at hact'

/-- The claim of a task leaves its record as the job was submitted, and under the
    lease of this node. -/
theorem claimTask_replica (P : Primitives) (hs : Replica s taskId job)
    (hok : (s.ledger.claimTask taskId now).ret = .ok true) :
    ∃ new, (s.ledger.claimTask taskId now).ledger.find? taskId = some new ∧ SameJob new job ∧
      (s.ledger.claimTask taskId now).ledger.isMine new = true ∧
      KeysMatch (s.ledger.claimTask taskId now).ledger := by
  rcases s.ledger.claimTask_cases taskId now with
    hidle | ⟨old, new, hw, _, hstatus, _, hleased, hid, _⟩
  · exact (hidle.ret hok).elim
  · have hnew : (s.ledger.claimTask taskId now).ledger.find? taskId = some new := by
      rw [find?, hw.tasks, Dict.get?_set_self]
    have hkey : (s.ledger.claimTask taskId now).ledger.ourKey = s.ledger.ourKey :=
      (run_identity P _ (.claimTask taskId now)).1
    have hold := hs.genuine old hw.found
    refine ⟨new, hnew, ?_, (isMine_iff _ _).mpr ⟨by rw [hkey, hleased], hstatus⟩,
      run_keysMatch P _ (.claimTask taskId now) hs.keys⟩
    rcases run_reworked P s.ledger (.claimTask taskId now) hnew with
      hsame | ⟨_, old', hfound, hrewritten⟩ | ⟨_, _, _, _, _, hc, _⟩
    · exact hs.genuine new hsame
    · have hsame := Option.some.inj (hw.found.symm.trans hfound)
      rw [hsame] at hid hold
      exact ⟨hid.trans hold.taskId, hrewritten.payload.trans hold.payload,
        hrewritten.encrypted.trans hold.encrypted, hrewritten.thresholdT.trans hold.thresholdT⟩
    · simp only [reduceCtorEq] at hc

/-- Among the active tasks of a node is one record for an id, if any. -/
theorem active_eq (hkeys : KeysMatch s.ledger) (hf : s.ledger.find? taskId = some task)
    (hid : task.taskId = .str taskId) (hmine : s.ledger.isMine task = true) :
    ∃ rest, s.active taskId = task :: rest := by
  have hmem : task ∈ s.active taskId := s.mem_active.mpr ⟨⟨_, hf⟩, hmine, hid⟩
  cases hactive : s.active taskId with
  | nil =>
      rw [hactive] at hmem
      exact (List.not_mem_nil hmem).elim
  | cons t rest =>
      have ht : t ∈ s.active taskId := by
        rw [hactive]
        exact List.mem_cons_self ..
      rcases s.mem_active.mp ht with ⟨⟨k, hk⟩, _, htid⟩
      -- Both are filed under the id.
      rw [hkeys.key_eq hk htid] at hk
      rw [find?, hk, Option.some.injEq] at hf
      exact ⟨rest, by rw [hf]⟩

/-- An award sets a node to work that can claim the task and start on it. -/
theorem awardedRun_of_takes (H : Host) (hs : Replica s taskId job) (hjob : job.taskId = .str taskId)
    (hid : get msg (lit "task_id") = .str taskId)
    (hwinner : get msg (lit "winner") = .str s.ledger.ourKey) (h : Takes s taskId now) :
    ∃ i u task, AwardedRun H s msg now taskId i u task ∧ SameJob task job ∧
      u.up = true ∧ u.ledger.find? taskId = some task ∧ u.ledger.isMine task = true := by
  have hok := (claimTask_true_iff _ _ now).mpr h.free
  rcases claimTask_replica H.prims hs hok with ⟨task, hf, hsame, hmine, hkeys⟩
  -- The award, the entry of its thread, and the check of the lease.
  have haward : s.handleTaskAward msg now true = { s with
      ledger := (s.ledger.claimTask taskId now).ledger
      awarded := taskId :: s.awarded } := by
    unfold Process.handleTaskAward
    simp only [hid, hwinner, h.named, ne_eq, not_true_eq_false, or_self, if_false]
    simp only [Outcome.sent, true_or, if_true, hok]
  set s₁ : Process := { s with
    ledger := (s.ledger.claimTask taskId now).ledger
    awarded := taskId :: s.awarded } with hs₁
  have henter : s₁.enter taskId = { s₁ with
      awarded := s₁.awarded.erase taskId
      executing := s₁.executing.insert taskId
      executions := s₁.executions ++ [⟨taskId, .settling⟩] } := by
    unfold Process.enter
    exact if_neg h.idle
  set s₂ : Process := { s₁ with
    awarded := s₁.awarded.erase taskId
    executing := s₁.executing.insert taskId
    executions := s₁.executions ++ [⟨taskId, .settling⟩] } with hs₂
  rcases active_eq (s := s₂) hkeys hf (hsame.taskId.trans hjob) hmine with ⟨rest, hactive⟩
  have hsettling : s₂.executions[s₁.executions.length]? = some ⟨taskId, .settling⟩ :=
    List.getElem?_concat_length
  refine ⟨s₁.executions.length, { s₂ with
      executions := s₂.executions.set s₁.executions.length ⟨taskId, .running task⟩ }, task,
    ⟨true, [], [], s₁, s₂, fun _ ha => (List.not_mem_nil ha).elim,
      fun _ ha => (List.not_mem_nil ha).elim, ?_, rfl, ?_, ?_, ?_⟩, hsame, h.up, hf, hmine⟩
  · have hup : s.up = true := h.up
    simp only [Machine.run, List.map_nil, Process.step, hup, if_true, Process.act, haward,
      Option.bind_some]
  · have hup : s₁.up = true := h.up
    have hmem : taskId ∈ s₁.awarded := List.mem_cons_self ..
    simp only [Machine.run, List.map_nil, Process.step, hup, if_true, Process.act, hmem, henter,
      Option.bind_some]
  · have hup : s₂.up = true := h.up
    simp only [Process.step, hup, if_true, Process.act, hsettling, hactive]
  · have hlt : s₁.executions.length < s₂.executions.length := by
      rw [hs₂, List.length_append, List.length_singleton]
      exact Nat.lt_succ_self _
    exact List.getElem?_set_self hlt

end Awards

/-! ## What is done with the payload -/

/-- The texts of a completion whose payload was not opened. -/
def unopenedTexts : List PyStr :=
  [lit "encrypted payload — home node offline", lit "encrypted payload — no key configured"]

/-- The task is completed with one of them. -/
def Unopened (H : Host) (task : Task) (collected : Except PyErr (List (PyVal × Bytes))) : Prop :=
  ∃ reason ∈ unopenedTexts, executeOne H.prims H.texts H.worker task collected =
    .ok (.complete (shardText H.texts task reason))

/-- The execution completes its record with one of them. -/
def EndsUnopened (H : Host) (u : Process) (i : Nat) (taskId : PyStr) (task : Task) (work : Job) :
    Prop :=
  Unopened H task work.collected ∧ ∃ u' done, Process.step H u (.act (.finish i work)) = some u' ∧
    u'.ledger.find? taskId = some done ∧ done.status = .completed ∧
      ∃ reason ∈ unopenedTexts, done.result = .str (shardText H.texts task reason)

/-- The node has a key that opens the payload. -/
def Opens (H : Host) (payload : PyVal) : Prop :=
  ∃ cipher sealed text, H.worker.payloadCipher = some cipher ∧ payload = .str sealed ∧
    cipher.decrypt H.prims sealed = .ok text

theorem enabled_of_decrypt {P : Primitives} {cipher : PayloadCipher} {sealed text : PyStr}
    (h : cipher.decrypt P sealed = .ok text) : cipher.enabled = true := by
  cases hkey : cipher.privateKey with
  | some k =>
      rw [PayloadCipher.enabled, hkey]
      rfl
  | none =>
      rw [PayloadCipher.decrypt, hkey] at h
      split at h
      · exact (nomatch h)
      · rcases bind_eq_ok.mp h with ⟨_, _, h⟩
        simp only [reduceCtorEq] at h

section Execution

variable {H : Host} {task : Task} {sealed : PyStr}

/-- A node completes the task with such a text exactly if it cannot open the
    payload. -/
theorem unopened_iff (collected : Except PyErr (List (PyVal × Bytes)))
    (hid : task.taskId.sliceable = true) (hpayload : task.payload = .str sealed)
    (hmark : startsWith sealed payloadMarker = true) (ht : task.thresholdT = .int 0)
    (henc : task.encrypted = .bool true) :
    Unopened H task collected ↔ ¬ Opens H task.payload := by
  constructor
  · rintro ⟨reason, _, hcomplete⟩ ⟨cipher, sealed', text, hcipher, hsealed, hopen⟩
    rw [hpayload, PyVal.str.injEq] at hsealed
    rw [← hsealed] at hopen
    rw [executeOne_encrypted collected hid hpayload hmark ht henc hcipher (enabled_of_decrypt hopen)
      hopen] at hcomplete
    cases hcomplete
  · intro hno
    have hthreshold : isThreshold task = .ok false := by
      unfold isThreshold
      rw [ht, PyVal.gt, lt_int]
      rfl
    have hencrypted : isEncrypted task = .ok true := by
      unfold isEncrypted
      rw [henc, hpayload]
      exact congrArg Except.ok hmark
    -- The two texts are those of a key that fails and of no key.
    unfold Unopened executeOne
    rw [hthreshold, hencrypted]
    simp only [executeEncrypted]
    cases hcipher : H.worker.payloadCipher with
    | none => exact ⟨_, List.mem_cons_of_mem _ (List.mem_singleton_self _), rfl⟩
    | some cipher =>
        by_cases henabled : cipher.enabled = true
        · cases hopen : decryptPayload H.prims cipher task with
          | error e =>
              simp only [if_pos henabled, hopen]
              exact ⟨_, List.mem_cons_self .., rfl⟩
          | ok text =>
              -- A decryption that returns would be an opening.
              refine (hno ⟨cipher, sealed, text, hcipher, hpayload, ?_⟩).elim
              simp only [decryptPayload, hpayload, if_pos hid] at hopen
              split at hopen
              · rename_i hdecrypt
                rw [hdecrypt]
                exact hopen
              · simp only [reduceCtorEq] at hopen
        · simp only [if_neg henabled]
          exact ⟨_, List.mem_cons_of_mem _ (List.mem_singleton_self _), rfl⟩

/-- The text reaches the record that is still under the lease of the node. -/
theorem endsUnopened {u : Process} {i : Nat} {taskId : PyStr} {work : Job} {found : Task}
    (hup : u.up = true) (hrunning : u.executions[i]? = some ⟨taskId, .running task⟩)
    (hf : u.ledger.find? taskId = some found) (hmine : u.ledger.isMine found = true)
    (hunopened : Unopened H task work.collected) : EndsUnopened H u i taskId task work := by
  refine ⟨hunopened, ?_⟩
  rcases hunopened with ⟨reason, hreason, hcomplete⟩
  have hcall : H.callOf taskId task work =
      some (.completeTask taskId (shardText H.texts task reason) work.now work.uuid) := by
    simp only [Host.callOf, hcomplete]
  have hstep : Process.step H u (.act (.finish i work)) = some { u with
      ledger := (u.ledger.completeTask taskId (shardText H.texts task reason) work.now
        work.uuid).ledger
      executions := u.executions.set i ⟨taskId, .leaving⟩ } := by
    simp only [Process.step, hup, if_true, Process.act, hrunning, hcall]
    rfl
  rcases u.ledger.completeTask_cases taskId (shardText H.texts task reason) work.now work.uuid with
    ⟨_, hother⟩ | ⟨old, new, hw, _, hstatus, _, _, hresult, _⟩
  · exact (hother found hf ((isMine_iff _ _).mp hmine).1).elim
  · refine ⟨_, new, hstep, ?_, hstatus, reason, hreason, hresult⟩
    rw [find?, hw.tasks, Dict.get?_set_self]

end Execution

/-! ## The job -/

/-- A job that was sealed to the key of the home node of its shard, in an auction
    that the home node takes part in and whose requests have gone out. The nodes have
    the job as it was submitted, and can be reached under their keys. -/
structure Sale (P : Primitives) where
  auctioneer : WhisperNode
  taskId : PyStr
  shardId : Int
  /-- the ledger at the submission, and what was submitted -/
  ledger : TaskLedger
  env : SubmitEnv
  text : PyStr
  submitterKey : PyVal
  nodes : PyStr → Option (Host × Process)
  home : PyStr
  homeHost : Host
  homeProcess : Process
  privateKey : Bytes
  encrypted : (ledger.submittedTask P env taskId text shardId submitterKey).encrypted = .bool true
  replica : ∀ k H s, nodes k = some (H, s) → s.ledger.ourKey = k ∧
    Replica s taskId (ledger.submittedTask P env taskId text shardId submitterKey)
  home_node : nodes home = some (homeHost, homeProcess)
  home_prims : homeHost.prims = P
  home_key : homeHost.worker.payloadCipher = some ⟨some privateKey⟩
  sealed_to_home : publicKeyOfHex env.encPubkey = .ok (P.xPublic privateKey)
  home_bids : ∃ b ∈ auctioneer.candidates taskId, b.sender = .str home ∧
    pyEq b.shardId (.int shardId) = true

namespace Sale

variable {P : Primitives} (F : FloatSort Bid) (A : Sale P)

/-- The record of the job, as it was submitted. -/
def job : Task := A.ledger.submittedTask P A.env A.taskId A.text A.shardId A.submitterKey

theorem job_taskId : A.job.taskId = .str A.taskId := rfl

/-- In some run of award, claim and execution the job is completed with its
    payload unopened. -/
def Wastes (uuid : PyStr) (now : ℚ) : Prop :=
  ∃ k msg H s i u task work,
    A.auctioneer.runAuction F uuid A.taskId A.shardId = .ok (.str k, msg) ∧
    A.nodes k = some (H, s) ∧ AwardedRun H s msg now A.taskId i u task ∧ SameJob task A.job ∧
    EndsUnopened H u i A.taskId task work

/-- The payload is marked as sealed, and the home node opens it. -/
theorem sealed_parts (hP : P.Lawful) : ∃ text sealed, A.job.payload = .str sealed ∧
    A.job.thresholdT = .int 0 ∧ startsWith sealed payloadMarker = true ∧
      PayloadCipher.decrypt P ⟨some A.privateKey⟩ sealed = .ok text := by
  rcases submitted_encrypted P A.ledger A.env A.taskId A.text A.shardId A.submitterKey
      A.encrypted with
    ⟨text, sealed, hseal, hpayload, ht⟩
  rcases PayloadCipher.decrypt_encrypt P hP hseal A.sealed_to_home with ⟨hmark, hopen⟩
  exact ⟨text, sealed, hpayload, ht, hmark, hopen⟩

theorem home_opens (hP : P.Lawful) : Opens A.homeHost A.job.payload := by
  rcases A.sealed_parts hP with ⟨text, sealed, hpayload, _, _, hopen⟩
  exact ⟨_, sealed, text, A.home_key, hpayload, by rw [A.home_prims]; exact hopen⟩

/-- A node that executes the job wastes it exactly if it cannot open it. -/
theorem unopened_job (hP : P.Lawful) {H : Host} {task : Task} (hsame : SameJob task A.job)
    (collected : Except PyErr (List (PyVal × Bytes))) :
    Unopened H task collected ↔ ¬ Opens H A.job.payload := by
  rcases A.sealed_parts hP with ⟨_, sealed, hpayload, ht, hmark, _⟩
  have hid : task.taskId.sliceable = true := by
    rw [hsame.taskId]
    rfl
  rw [← hsame.payload]
  exact unopened_iff collected hid (hsame.payload.trans hpayload) hmark (hsame.thresholdT.trans ht)
    (hsame.encrypted.trans A.encrypted)

/-- The job is wasted if the winner can take it and cannot open it. -/
theorem wastes_iff (hP : P.Lawful) (uuid : PyStr) (now : ℚ) :
    A.Wastes F uuid now ↔ ∃ bid k H s,
      Wins F A.shardId (A.auctioneer.candidates A.taskId) bid ∧
        bid.sender = .str k ∧ A.nodes k = some (H, s) ∧ Takes s A.taskId now ∧
        ¬ Opens H A.job.payload := by
  constructor
  · rintro ⟨k, msg, H, s, i, u, task, work, haward, hnode, hrun, hsame, hunopened, _⟩
    rcases (A.auctioneer.runAuction_winner F uuid A.taskId k A.shardId msg).mp haward with
      ⟨bid, hbid, hsender, _⟩
    exact ⟨bid, k, H, s, hbid, hsender, hnode,
      takes_of_awardedRun (A.replica k H s hnode).2.fresh hrun,
      (A.unopened_job hP hsame _).mp hunopened⟩
  · -- The winner takes the award at once, and nothing comes between.
    rintro ⟨bid, k, H, s, hbid, hsender, hnode, htakes, hno⟩
    rcases A.replica k H s hnode with ⟨hkey, hreplica⟩
    have haward := (A.auctioneer.runAuction_winner F uuid A.taskId k A.shardId _).mpr
      ⟨bid, hbid, hsender, rfl⟩
    have hwinner : get (awardMsg A.auctioneer.membership.ourKey uuid A.taskId A.shardId bid)
        (lit "winner") = .str s.ledger.ourKey := by
      rw [hkey, ← hsender]
      rfl
    rcases awardedRun_of_takes H hreplica A.job_taskId rfl hwinner htakes with
      ⟨i, u, task, hrun, hsame, hup, hf, hmine⟩
    have hrunning : u.executions[i]? = some ⟨A.taskId, .running task⟩ := by
      rcases hrun with ⟨_, _, _, _, _, _, _, _, _, _, _, hlast⟩
      exact hlast
    exact ⟨k, _, H, s, i, u, task, ⟨.ok [], .ok [], now, uuid⟩, haward, hnode, hrun, hsame,
      endsUnopened hup hrunning hf hmine ((A.unopened_job hP hsame (.ok [])).mpr hno)⟩

/-- A home node whose bid is least with the bonus does its job, or nobody does. -/
theorem not_wastes_of_home_least (hP : P.Lawful) (uuid : PyStr) (now : ℚ)
    (hprices : ∀ b ∈ A.auctioneer.candidates A.taskId, b.priceAxl ≠ .nan)
    (hleast : ∀ b ∈ A.auctioneer.candidates A.taskId, b.sender ≠ .str A.home →
      ∃ own ∈ A.auctioneer.candidates A.taskId, own.sender = .str A.home ∧
        bidSum A.shardId own < bidSum A.shardId b) : ¬ A.Wastes F uuid now := by
  rw [A.wastes_iff F hP]
  rintro ⟨bid, k, H, s, hbid, hsender, hnode, _, hno⟩
  by_cases hhome : bid.sender = .str A.home
  · rw [hhome, PyVal.str.injEq] at hsender
    rw [← hsender, A.home_node, Option.some.injEq, Prod.mk.injEq] at hnode
    rw [← hnode.1] at hno
    exact hno (A.home_opens hP)
  · rcases hleast bid hbid.mem hhome with ⟨own, hmem, _, hlt⟩
    exact (not_lt_of_ge (((wins_iff F hprices bid).mp hbid).le hmem)) hlt

end Sale

/-- No run of award, claim and execution wastes the job exactly if the bid that wins,
    by its price with half a cent added as floats where it is not for the shard, comes
    from a node that opens the payload, or that cannot take the job. -/
theorem not_wastes_iff (P : Primitives) (hP : P.Lawful) (F : FloatSort Bid) (A : Sale P)
    (uuid : PyStr) (now : ℚ) :
    ¬ A.Wastes F uuid now ↔ ∀ bid k H s,
      Wins F A.shardId (A.auctioneer.candidates A.taskId) bid →
        bid.sender = .str k → A.nodes k = some (H, s) → Takes s A.taskId now →
          Opens H A.job.payload := by
  rw [A.wastes_iff F hP]
  constructor
  · intro hno bid k H s hbid hsender hnode htakes
    by_contra hopens
    exact hno ⟨bid, k, H, s, hbid, hsender, hnode, htakes, hopens⟩
  · rintro hall ⟨bid, k, H, s, hbid, hsender, hnode, htakes, hopens⟩
    exact hopens (hall bid k H s hbid hsender hnode htakes)

namespace Outbid

/-- The node that is handed the job, of the first shard, knows the home node of
    the second one. -/
def membership : MembershipLayer where
  ourKey := lit "a"
  ourShardId := 1
  ourPriceAxl := 3 / 100
  peers := Dict.empty.set (.str (lit "b"))
    { lastSeen := 0, shardId := some 2, encPubkey := .str (hex (Reference.fit [2])) }

def ledger : TaskLedger where
  ourKey := lit "a"
  cipher := ⟨some [1]⟩

/-- The job is sealed to the key of the home node of the second shard. -/
noncomputable def env : SubmitEnv :=
  { SubmitEnv.plain with
    encPubkey := getEncPubkeyForShard reference ⟨some [1]⟩ 1 membership (.int 2) }

noncomputable def job : Task := ledger.submittedTask reference env (lit "t") (lit "ask") 2 .none

/-- The home node asks for two cents. -/
def homeBid : Bid where
  sender := .str (lit "b")
  priceAxl := .num (2 / 100)
  capabilities := .list []
  shardId := .int 2

/-- A node of the third shard asks for this price. -/
def rivalBid (price : ℚ) : Bid where
  sender := .str (lit "c")
  priceAxl := .num price
  capabilities := .list []
  shardId := .int 3

def auctioneer (price : ℚ) : WhisperNode where
  membership := membership
  ledger := ledger
  runtime := { shardId := 1 }
  cipher := ⟨some [1]⟩
  bidCollections := Dict.empty.set (.str (lit "t")) { bids := [homeBid, rivalBid price] }

noncomputable def host (shardId : Int) (privateKey : Bytes) : Host where
  prims := reference
  texts := { ofVal := fun _ => [], ofErr := fun _ => [] }
  runtime := { shardId := shardId }
  worker := { payloadCipher := some ⟨some privateKey⟩ }

noncomputable def process (key : PyStr) : Process where
  ledger := { ourKey := key, tasks := Dict.empty.set (.str (lit "t")) job }
  up := true

noncomputable def nodes (k : PyStr) : Option (Host × Process) :=
  if k = lit "a" then some (host 1 [1], process k)
  else if k = lit "b" then some (host 2 [2], process k)
  else if k = lit "c" then some (host 3 [3], process k)
  else none

theorem nodes_eq {k : PyStr} {H : Host} {s : Process} (h : nodes k = some (H, s)) :
    s = process k := by
  unfold nodes at h
  split at h
  · exact (Prod.mk.inj (Option.some.inj h)).2.symm
  · split at h
    · exact (Prod.mk.inj (Option.some.inj h)).2.symm
    · split at h
      · exact (Prod.mk.inj (Option.some.inj h)).2.symm
      · simp only [reduceCtorEq] at h

theorem find_job (k : PyStr) : (process k).ledger.find? (lit "t") = some job :=
  Dict.get?_set_self _ _ _

theorem replica (k : PyStr) : Replica (process k) (lit "t") job where
  keys := by
    intro k' t ht
    have hset : (Dict.empty.set (.str (lit "t")) job).get? k' = some t := ht
    rw [Dict.get?_set] at hset
    split at hset
    · rename_i hk
      rw [← Option.some.inj hset, hk]
      rfl
    · cases hset
  genuine := by
    intro task ht
    rw [find_job, Option.some.injEq] at ht
    rw [← ht]
    exact ⟨rfl, rfl, rfl, rfl⟩
  fresh := List.not_mem_nil

noncomputable def sale (price : ℚ) : Sale reference where
  auctioneer := auctioneer price
  taskId := lit "t"
  shardId := 2
  ledger := ledger
  env := env
  text := lit "ask"
  submitterKey := .none
  nodes := nodes
  home := lit "b"
  homeHost := host 2 [2]
  homeProcess := process (lit "b")
  privateKey := [2]
  encrypted := by decide +kernel
  replica := by
    intro k H s h
    rw [nodes_eq h]
    exact ⟨rfl, replica k⟩
  home_node := rfl
  home_prims := rfl
  home_key := rfl
  sealed_to_home := publicKeyOfHex_hex reference reference_lawful [2]
  home_bids := ⟨_, List.mem_cons_self .., rfl, by decide⟩

/-- The node of the third shard does not open the payload. -/
theorem not_opens : ¬ Opens (host 3 [3]) job.payload := by
  rintro ⟨cipher, sealed, text, hcipher, hpayload, hopen⟩
  obtain ⟨sealed', hjob, hfails⟩ : ∃ sealed', job.payload = .str sealed' ∧
      PayloadCipher.decrypt reference ⟨some [3]⟩ sealed' = .error .valueError :=
    ⟨_, rfl, by decide +kernel⟩
  rw [hpayload, PyVal.str.injEq] at hjob
  rw [← hjob, Option.some.inj hcipher] at hfails
  cases hopen.symm.trans hfails

theorem takes (k : PyStr) (hk : k.any isSurrogate = false) : Takes (process k) (lit "t") 10 where
  up := rfl
  named := by decide
  idle := List.not_mem_nil
  free := ⟨job, find_job k, ⟨by decide +kernel, fun h => absurd h (by decide +kernel)⟩,
    by rw [List.any_append]; exact (congrArg (· || _) hk).trans (by decide), by decide +kernel⟩

/-- With a cent against two, the bonus of half a cent does not save the job. -/
theorem home_outbid : (sale (1 / 100)).Wastes (FloatSort.reference Bid) (lit "u") 10 := by
  refine ((sale (1 / 100)).wastes_iff _ reference_lawful (lit "u") 10).mpr
    ⟨rivalBid (1 / 100), lit "c", _, _, ?_, rfl, rfl, takes (lit "c") (by decide), not_opens⟩
  refine (wins_iff _ (by decide +kernel) _).mpr
    ⟨[homeBid], [(auctioneer (1 / 100)).ownBid], rfl, fun b hb => ?_, fun b hb => ?_⟩
  · rw [List.mem_singleton.mp hb]
    decide +kernel
  · rw [List.mem_singleton.mp hb]
    decide +kernel

/-- At the same price the home node does it. -/
theorem home_preferred : ¬ (sale (2 / 100)).Wastes (FloatSort.reference Bid) (lit "u") 10 := by
  refine (not_wastes_iff reference reference_lawful (FloatSort.reference Bid) (sale (2 / 100))
    (lit "u") 10).mpr (fun bid k H s hbid hsender hnode _ => ?_)
  have hhome : Wins (FloatSort.reference Bid) 2 ((auctioneer (2 / 100)).candidates (lit "t"))
      homeBid := by
    unfold Wins
    decide +kernel
  rw [← Option.some.inj (hhome.symm.trans hbid), homeBid, PyVal.str.injEq] at hsender
  rw [← hsender] at hnode
  rw [← (Prod.mk.inj (Option.some.inj hnode)).1]
  exact (sale (2 / 100)).home_opens reference_lawful

end Outbid

end WhisperNet
