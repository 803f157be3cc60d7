import WhisperNet.Demo.Poller

/-!
# The Economy of the Web UI

The web UI pays the executor of a task when it first sees the task completed. It
remembers every completed task it has seen, and looks for the executor among the
nodes only afterwards, by the short form of the key that the record has. An
executor that does not answer at that moment is not in the list.

## Main definitions

* `Economy`: The tasks that were credited, and the balances.
* `updateEconomy`: What a payload adds.
* `Snapshot.Names`: Every completed record names the executor of its task.
* `Economy.Kept`: Every task marked as credited was paid.
* `Economy.Balanced`: The balances are what was credited.
* `Payee`: The node that is found under a short form.

## Theorems

* `updateEconomy_marks`: A payload marks the tasks that it shows completed.
* `updateEconomy_kept`, `updateEconomy_balanced`: What it pays.
* `updateEconomy_frame`: A task that it does not mark is not paid.
* `payload_executor`, `payee_of_reached`: An executor that has answered is found.
* `found_executor`: And no other node is.
-/

namespace WhisperNet

/-- `_credited_tasks` and `_provider_balances`, with the credits given so far. -/
structure Economy where
  creditedTasks : Finset PyStr := ∅
  providerBalances : Dict PyStr ℚ := Dict.empty
  /-- each credit, with the task and the node -/
  credits : List (PyStr × PyStr) := []

/-- `n.get("short") or n["id"][:8]`. -/
def NodeView.tag (n : NodeView) : PyStr := if n.short = [] then n.id.take 8 else n.short

namespace Economy

variable (s : Economy)

/-- The nodes that a task was credited to. -/
def creditsOf (tid : PyStr) : List PyStr :=
  (s.credits.filter (fun c => c.1 = tid)).map Prod.snd

/-- The task counts as credited from now on. -/
def mark (tid : PyStr) : Economy := { s with creditedTasks := insert tid s.creditedTasks }

def pay (tid id : PyStr) : Economy :=
  { s with
    providerBalances := s.providerBalances.set id ((s.providerBalances.get? id).getD 0 + 1 / 100)
    credits := s.credits ++ [(tid, id)] }

end Economy

/-- One task in the loop of `_update_economy`. -/
def creditTask (nodes : List NodeView) (s : Economy) (t : ReportedTask) : Economy :=
  if t.status = .completed ∧ t.taskId ∉ s.creditedTasks then
    match t.leasedBy with
    | none => s.mark t.taskId
    | some execShort =>
      if execShort = [] then s.mark t.taskId
      else match nodes.find? (fun n => n.tag = execShort) with
        | none => s.mark t.taskId
        | some n => (s.mark t.taskId).pay t.taskId n.id
  else s

/-- `_update_economy`. -/
def updateEconomy (p : Payload) (s : Economy) : Economy := p.tasks.foldl (creditTask p.nodes) s

/-- An event of the poller, with the economy as what the web UI keeps. -/
def economyStep (s : Poller Economy) (e : PollEvent) : Option (Poller Economy) :=
  s.step (fun _ => updateEconomy) updateEconomy e

/-! ## Executors -/

/-- A public key is a hexadecimal number, so its short form is not the label of a
    placeholder. -/
def IsKey (k : PyStr) : Prop := k ≠ [] ∧ k.head? ≠ (lit ":").head?

/-- A snapshot names the executor of each task it has as completed, and the node of
    the snapshot has the short form of an executor only if it is that. -/
structure Snapshot.Names (exec : PyStr → PyStr) (s : Snapshot) : Prop where
  executor : ∀ tid t, s.tasks.get? tid = some t → t.status = .completed →
    t.leasedBy = some ((exec tid).take 8)
  prefixes : ∀ tid, s.ourKey.take 8 = (exec tid).take 8 → s.ourKey = exec tid

/-- The tasks marked as credited are those that were paid, each to its executor. -/
structure Economy.Kept (exec : PyStr → PyStr) (s : Economy) : Prop where
  paid : ∀ tid ∈ s.creditedTasks, s.creditsOf tid = [exec tid]
  unpaid : ∀ tid, tid ∉ s.creditedTasks → s.creditsOf tid = []

/-- The balances are what was credited. -/
def Economy.Balanced (s : Economy) : Prop :=
  ∀ key, (s.providerBalances.get? key).getD 0 =
    (s.credits.filter (fun c => c.2 = key)).length * (1 / 100)

/-- The first node of the payload that goes by the short form of a key is the node
    with that key. -/
def Payee (nodes : List NodeView) (key : PyStr) : Prop :=
  ∃ n, nodes.find? (fun n => n.tag = key.take 8) = some n ∧ n.id = key

/-! ## The loop -/

section Loop

variable {nodes : List NodeView} {s : Economy} {t : ReportedTask}

/-- What the loop does with a task: nothing, a mark, or a mark and a credit. -/
theorem creditTask_cases (nodes : List NodeView) (s : Economy) (t : ReportedTask) :
    (¬ (t.status = .completed ∧ t.taskId ∉ s.creditedTasks) ∧ creditTask nodes s t = s) ∨
      ((t.status = .completed ∧ t.taskId ∉ s.creditedTasks) ∧
        (creditTask nodes s t = s.mark t.taskId ∨
          ∃ id, creditTask nodes s t = (s.mark t.taskId).pay t.taskId id)) := by
  unfold creditTask
  by_cases hnew : t.status = .completed ∧ t.taskId ∉ s.creditedTasks
  · refine Or.inr ⟨hnew, ?_⟩
    rw [if_pos hnew]
    split
    · exact Or.inl rfl
    · split
      · exact Or.inl rfl
      · split
        · exact Or.inl rfl
        · exact Or.inr ⟨_, rfl⟩
  · exact Or.inl ⟨hnew, if_neg hnew⟩

theorem creditTask_marks (nodes : List NodeView) (s : Economy) (t : ReportedTask) (tid : PyStr) :
    tid ∈ (creditTask nodes s t).creditedTasks ↔
      tid ∈ s.creditedTasks ∨ (t.status = .completed ∧ t.taskId = tid) := by
  have hmark : tid ∈ insert t.taskId s.creditedTasks ↔ tid ∈ s.creditedTasks ∨ t.taskId = tid := by
    rw [Finset.mem_insert, or_comm, eq_comm]
  rcases creditTask_cases nodes s t with ⟨hold, heq⟩ | ⟨⟨hstatus, _⟩, heq⟩
  · -- The task was not completed, or marked before.
    rw [heq]
    constructor
    · exact Or.inl
    · rintro (h | ⟨hstatus, hid⟩)
      · exact h
      · by_contra hnot
        exact hold ⟨hstatus, hid ▸ hnot⟩
  · have hsame : tid ∈ (creditTask nodes s t).creditedTasks ↔
        tid ∈ insert t.taskId s.creditedTasks := by
      rcases heq with heq | ⟨id, heq⟩
      · rw [heq]
        rfl
      · rw [heq]
        rfl
    rw [hsame, hmark]
    simp only [hstatus, true_and]

/-- A payload marks the tasks that it shows completed. -/
theorem updateEconomy_marks (p : Payload) (s : Economy) (tid : PyStr) :
    tid ∈ (updateEconomy p s).creditedTasks ↔
      tid ∈ s.creditedTasks ∨ ∃ t ∈ p.tasks, t.taskId = tid ∧ t.status = .completed := by
  unfold updateEconomy
  generalize p.tasks = tasks
  induction tasks generalizing s with
  | nil => simp only [List.foldl_nil, List.not_mem_nil, false_and, exists_false, or_false]
  | cons t tasks ih =>
      rw [List.foldl_cons, ih, creditTask_marks]
      simp only [List.mem_cons, exists_eq_or_imp, or_assoc, and_comm]

theorem creditsOf_pay (s : Economy) (tid id tid' : PyStr) :
    (s.pay tid id).creditsOf tid' = s.creditsOf tid' ++ if tid = tid' then [id] else [] := by
  unfold Economy.creditsOf Economy.pay
  rw [List.filter_append, List.map_append]
  by_cases hid : tid = tid'
  · simp only [hid, List.filter_cons, decide_true, if_true, List.filter_nil, List.map_cons,
      List.map_nil]
  · simp only [List.filter_cons, decide_eq_false hid, Bool.false_eq_true, if_false,
      List.filter_nil, List.map_nil, if_neg hid]

/-- A completed task is paid if its executor is found. -/
theorem creditTask_paid (exec : PyStr → PyStr) (hkey : exec t.taskId ≠ [])
    (hstatus : t.status = .completed) (hnew : t.taskId ∉ s.creditedTasks)
    (hlease : t.leasedBy = some ((exec t.taskId).take 8)) (hpayee : Payee nodes (exec t.taskId)) :
    creditTask nodes s t = (s.mark t.taskId).pay t.taskId (exec t.taskId) := by
  rcases hpayee with ⟨n, hfind, hid⟩
  have hshort : (exec t.taskId).take 8 ≠ [] := by
    intro hc
    rcases List.take_eq_nil_iff.mp hc with hc | hc
    · exact absurd hc (by decide)
    · exact hkey hc
  unfold creditTask
  rw [if_pos ⟨hstatus, hnew⟩, hlease]
  dsimp only
  rw [if_neg hshort, hfind]
  dsimp only
  rw [hid]

theorem creditTask_kept {exec : PyStr → PyStr} (h : s.Kept exec)
    (hpay : t.status = .completed → t.taskId ∉ s.creditedTasks →
      creditTask nodes s t = (s.mark t.taskId).pay t.taskId (exec t.taskId)) :
    (creditTask nodes s t).Kept exec := by
  rcases creditTask_cases nodes s t with ⟨_, heq⟩ | ⟨⟨hstatus, hnew⟩, _⟩
  · rw [heq]
    exact h
  · rw [hpay hstatus hnew]
    -- The credits of the other tasks stay, and this one had none.
    constructor
    · intro tid hmem
      rw [creditsOf_pay]
      rcases Finset.mem_insert.mp hmem with hid | hold
      · rw [hid, if_pos rfl]
        change s.creditsOf t.taskId ++ [exec t.taskId] = [exec t.taskId]
        rw [h.unpaid _ hnew, List.nil_append]
      · have hne : t.taskId ≠ tid := fun hc => hnew (hc ▸ hold)
        rw [if_neg hne, List.append_nil]
        exact h.paid tid hold
    · intro tid hmem
      have hsplit := not_or.mp (fun hc => hmem (Finset.mem_insert.mpr hc))
      rw [creditsOf_pay, if_neg (fun hc => hsplit.1 hc.symm), List.append_nil]
      exact h.unpaid tid hsplit.2

/-- If every task it marks has an executor to be found, a payload pays what it
    marks. -/
theorem updateEconomy_kept {exec : PyStr → PyStr} {p : Payload} (h : s.Kept exec)
    (hkeys : ∀ tid, exec tid ≠ [])
    (hpay : ∀ t ∈ p.tasks, t.status = .completed → t.taskId ∉ s.creditedTasks →
      t.leasedBy = some ((exec t.taskId).take 8) ∧ Payee p.nodes (exec t.taskId)) :
    (updateEconomy p s).Kept exec := by
  unfold updateEconomy
  generalize p.tasks = tasks at hpay ⊢
  induction tasks generalizing s with
  | nil => exact h
  | cons t tasks ih =>
      have hhead : t.status = .completed → t.taskId ∉ s.creditedTasks →
          creditTask p.nodes s t = (s.mark t.taskId).pay t.taskId (exec t.taskId) := by
        intro hstatus hnew
        rcases hpay t (List.mem_cons_self ..) hstatus hnew with ⟨hlease, hpayee⟩
        exact creditTask_paid exec (hkeys _) hstatus hnew hlease hpayee
      -- The rest starts with one task more marked.
      refine ih (creditTask_kept h hhead) (fun t' ht' hstatus hnew => ?_)
      exact hpay t' (List.mem_cons_of_mem _ ht') hstatus
        (fun hold => hnew ((creditTask_marks p.nodes s t _).mpr (Or.inl hold)))

/-- A task is paid only if it is newly marked and its executor is found. -/
theorem creditTask_frame {tid : PyStr} (h : t.taskId = tid → t.status = .completed →
    tid ∉ s.creditedTasks → ∃ execShort, t.leasedBy = some execShort ∧
      nodes.find? (fun n => n.tag = execShort) = none) :
    (creditTask nodes s t).creditsOf tid = s.creditsOf tid := by
  rcases creditTask_cases nodes s t with ⟨_, heq⟩ | ⟨⟨hstatus, hnew⟩, heq | ⟨id, heq⟩⟩
  · rw [heq]
  · rw [heq]
    rfl
  · by_cases hid : t.taskId = tid
    · -- The executor is not found, so this is not the branch.
      rcases h hid hstatus (hid ▸ hnew) with ⟨execShort, hlease, hnone⟩
      have hmark : creditTask nodes s t = s.mark t.taskId := by
        unfold creditTask
        rw [if_pos ⟨hstatus, hnew⟩, hlease]
        dsimp only
        rw [hnone]
        exact ite_self _
      rw [hmark]
      rfl
    · rw [heq, creditsOf_pay, if_neg hid, List.append_nil]
      rfl

theorem updateEconomy_frame {p : Payload} {tid : PyStr} (h : ∀ t ∈ p.tasks, t.taskId = tid →
    t.status = .completed → tid ∉ s.creditedTasks → ∃ execShort, t.leasedBy = some execShort ∧
      p.nodes.find? (fun n => n.tag = execShort) = none) :
    (updateEconomy p s).creditsOf tid = s.creditsOf tid := by
  unfold updateEconomy
  generalize p.tasks = tasks at h ⊢
  induction tasks generalizing s with
  | nil => rfl
  | cons t tasks ih =>
      rw [List.foldl_cons, ih, creditTask_frame (h t (List.mem_cons_self ..))]
      intro t' ht' hid hstatus hnew
      refine h t' (List.mem_cons_of_mem _ ht') hid hstatus (fun hold => hnew ?_)
      exact (creditTask_marks p.nodes s t tid).mpr (Or.inl hold)

theorem pay_balanced (h : s.Balanced) (tid id : PyStr) : (s.pay tid id).Balanced := by
  intro key
  unfold Economy.pay
  dsimp only
  rw [Dict.get?_set, List.filter_append, List.length_append]
  by_cases hid : key = id
  · rw [if_pos hid, Option.getD_some, ← hid, h key]
    simp only [List.filter_cons, decide_true, if_true, List.filter_nil, List.length_singleton]
    push_cast
    ring
  · rw [if_neg hid, h key]
    simp only [List.filter_cons, decide_eq_false (Ne.symm hid), Bool.false_eq_true, if_false,
      List.filter_nil, List.length_nil, Nat.add_zero]

theorem updateEconomy_balanced (p : Payload) (h : s.Balanced) : (updateEconomy p s).Balanced := by
  unfold updateEconomy
  generalize p.tasks = tasks
  induction tasks generalizing s with
  | nil => exact h
  | cons t tasks ih =>
      refine ih ?_
      rcases creditTask_cases p.nodes s t with ⟨_, heq⟩ | ⟨_, heq | ⟨id, heq⟩⟩
      · rw [heq]
        exact h
      · rw [heq]
        exact h
      · rw [heq]
        exact pay_balanced (s := s.mark t.taskId) h t.taskId id

end Loop

/-! ## Payees -/

section Payees

variable {exec : PyStr → PyStr} {states : NodeStates} {p : Payload}

/-- The reports of the peers change no name. -/
theorem propagate_names (peers : List PeerView) (nodes : List NodeView) :
    (peers.foldl propagate nodes).map (fun n => (n.id, n.tag)) =
      nodes.map (fun n => (n.id, n.tag)) := by
  induction peers generalizing nodes with
  | nil => rfl
  | cons peer peers ih =>
      rw [List.foldl_cons, ih, propagate]
      split
      · rw [List.map_map]
        refine List.map_congr_left (fun n _ => ?_)
        rw [Function.comp]
        split
        · rfl
        · rfl
      · rfl

theorem payload_names (hbuild : buildPayload states = .ok p) :
    p.nodes.map (fun n => (n.id, n.tag)) =
      states.map (fun e => ((nodeView e.1 e.2).id, (nodeView e.1 e.2).tag)) := by
  unfold buildPayload at hbuild
  split at hbuild
  · simp only [reduceCtorEq] at hbuild
  · rw [← Except.ok.inj hbuild, propagate_names, List.map_map]
    rfl

/-- The entry of a node goes by the short form of its key. -/
theorem tag_nodeView (port : Nat) (s : Snapshot) :
    (nodeView port (some s)).tag = s.ourKey.take 8 := by
  unfold NodeView.tag nodeView
  dsimp only
  split
  · rfl
  · rfl

/-- The entry of a node that is not reached does not go by the short form of a key. -/
theorem tag_placeholder {key : PyStr} (hkey : IsKey key) (port : Nat) :
    (nodeView port none).tag ≠ key.take 8 := by
  intro hc
  have hshort : (nodeView port none).tag = lit ":" ++ decimal port := by
    unfold NodeView.tag nodeView
    dsimp only
    rw [if_neg (List.append_ne_nil_of_left_ne_nil (by decide) _)]
  rw [hshort] at hc
  have hhead := congrArg List.head? hc
  rw [List.head?_take, List.head?_append_of_ne_nil _ (by decide)] at hhead
  exact hkey.2 (by simpa only [reduceCtorEq, if_false, OfNat.ofNat_ne_zero] using hhead.symm)

/-- What is found under the short form of an executor is its own entry. -/
theorem found_executor {tid : PyStr} {n : NodeView} (hbuild : buildPayload states = .ok p)
    (hkey : IsKey (exec tid)) (hnames : ∀ e ∈ states, ∀ s, e.2 = some s → s.Names exec)
    (hfind : p.nodes.find? (fun n => n.tag = (exec tid).take 8) = some n) :
    n.id = exec tid ∧ Reached states (exec tid) := by
  have htag := List.find?_some hfind
  rw [decide_eq_true_iff] at htag
  have hmem := List.mem_map_of_mem (f := fun n : NodeView => (n.id, n.tag))
    (List.mem_of_find?_eq_some hfind)
  rw [payload_names hbuild] at hmem
  rcases List.mem_map.mp hmem with ⟨e, he, heq⟩
  rcases Prod.mk.inj heq with ⟨hid, htag'⟩
  -- The entry is a placeholder or that of a node.
  cases hs : e.2 with
  | none =>
      rw [hs, htag] at htag'
      exact absurd htag' (tag_placeholder hkey e.1)
  | some s =>
      rw [hs, tag_nodeView, htag] at htag'
      have hown := (hnames e he s hs).prefixes tid htag'
      rw [← hid, hs]
      exact ⟨hown, e, he, s, hs, hown⟩

/-- An executor that has answered is found in the payload. -/
theorem payee_of_reached {tid : PyStr} (hbuild : buildPayload states = .ok p)
    (hkey : IsKey (exec tid)) (hnames : ∀ e ∈ states, ∀ s, e.2 = some s → s.Names exec)
    (hreached : Reached states (exec tid)) : Payee p.nodes (exec tid) := by
  rcases hreached with ⟨e, he, s, hs, hown⟩
  have hsome : (p.nodes.find? (fun n => n.tag = (exec tid).take 8)).isSome = true := by
    have hmem := List.mem_map_of_mem (f := fun e : Nat × Option Snapshot =>
      ((nodeView e.1 e.2).id, (nodeView e.1 e.2).tag)) he
    rw [← payload_names hbuild] at hmem
    rcases List.mem_map.mp hmem with ⟨n, hn, heq⟩
    rw [List.find?_isSome]
    refine ⟨n, hn, decide_eq_true ?_⟩
    rw [(Prod.mk.inj heq).2, hs, tag_nodeView, hown]
  rcases Option.isSome_iff_exists.mp hsome with ⟨n, hfind⟩
  exact ⟨n, hfind, (found_executor hbuild hkey hnames hfind).1⟩

/-- A completed record in the payload names the executor. -/
theorem payload_executor (hbuild : buildPayload states = .ok p)
    (hnames : ∀ e ∈ states, ∀ s, e.2 = some s → s.Names exec) {t : ReportedTask}
    (ht : t ∈ p.tasks) (hstatus : t.status = .completed) :
    t.leasedBy = some ((exec t.taskId).take 8) := by
  rcases List.mem_filterMap.mp (champion_mem ((mem_payload hbuild t).mp ht)) with ⟨e, he, htells⟩
  rcases Option.bind_eq_some_iff.mp htells with ⟨s, hs, hsourced⟩
  rcases Option.map_eq_some_iff.mp hsourced with ⟨v, hv, hview⟩
  have hsame : t.toTaskView = v := by
    rw [← hview]
  have hlease := (hnames e he s hs).executor t.taskId v hv (hsame ▸ hstatus)
  rw [← hsame] at hlease
  exact hlease

end Payees

end WhisperNet
