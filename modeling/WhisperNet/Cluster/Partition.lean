import Mathlib.Data.Fintype.EquivFin
import WhisperNet.Cluster.Mesh
import WhisperNet.Crypto.Reference
import WhisperNet.Ledger.Calls
import WhisperNet.Runtime.Scan

/-!
# Rescues on Both Sides of a Partition

A fleet is a mesh of membership layers together with the ledger and the scan
loop of each node. A scan first selects tasks, from the membership view and the
ledger of that moment, and then claims them one by one; membership and ledger
go on changing in between.

A node claims the tasks of its own shard whatever it sees of the others. Only
the claims of other tasks, rescues, need a quorum, and the quorum counts the
peers a node takes for alive and leaves out those it has confirmed dead. So
what a node believes of the other side of a split decides. Two nodes on
different sides can both have a quorum only if what they take for alive across
the split, twice, and what they have confirmed dead there outweighs by two what
they have confirmed dead on their own sides: in particular never while neither
sees a node of the other side alive or has confirmed one dead. Nothing is
assumed about the messages that are delivered meanwhile.

## Main definitions

* `Fleet`: A mesh, the ledgers, the scans under way and the claims made.
* `FleetEvent`: A membership or ledger event, a scan or one of its claims.
* `Fleet.step`: The fleet after an event.
* `Fleet.marks`: How many nodes of a group a view has in a status.
* `Fleet.across`, `Fleet.lost`: What a view has across the split, and what it
  has confirmed dead on its own side.

## Theorems

* `count_eq_marks`: The peers in a status, by group.
* `votes_of_quorum`: What a quorum says about the marks across the split.
* `run_sound`: The claims of a fleet are selections from sound views.
* `rescues_one_side`: Rescues stay on one side.
* `Sides.both_claim`: A home node and a rescuer on the other side.
-/

namespace WhisperNet

open MembershipLayer AgentRuntime

/-- A claim a scan made: the task as it was selected, and the membership view
    the selection was made from. -/
structure ScanClaim (ι : Type) where
  node : ι
  task : Task
  view : MembershipLayer

/-- The tasks a scan has selected and not yet dispatched. -/
structure Dispatch where
  tasks : List Task
  view : MembershipLayer

structure Fleet (ι : Type) where
  mesh : Mesh ι
  ledgers : ι → TaskLedger
  runtimes : ι → AgentRuntime
  scans : ι → Option Dispatch
  claims : List (ScanClaim ι)

/-- `ledger` is any call on a ledger and any update it receives; `reload` is
    its restart. `claim` is the next attempt of a scan, and `skip` a task it
    leaves alone because the node is executing it. -/
inductive FleetEvent (ι : Type)
  | mesh (e : MeshEvent ι)
  | ledger (i : ι) (op : Op)
  | reload (i : ι)
  | scan (i : ι) (now : ℚ)
  | claim (i : ι) (taskId : PyStr) (now : ℚ)
  | skip (i : ι)
  | finish (i : ι)

namespace Fleet

variable {ι : Type}

/-- A fleet whose membership layers have just started. Its ledgers hold
    anything. -/
structure Initial (s : Fleet ι) : Prop where
  mesh : s.mesh.Initial
  scans : ∀ i, s.scans i = none
  claims : s.claims = []

/-- A claim of a task of another shard than the node's own. -/
def Rescue (s : Fleet ι) (c : ScanClaim ι) : Prop := (s.runtimes c.node).isHome c.task = false

variable [DecidableEq ι]

def step (P : Primitives) (s : Fleet ι) : FleetEvent ι → Option (Fleet ι)
  | .mesh e => (s.mesh.step e).map (fun m => { s with mesh := m })
  | .ledger i op =>
    some { s with ledgers := Function.update s.ledgers i (op.apply P (s.ledgers i)) }
  | .reload i => some { s with
      ledgers := Function.update s.ledgers i (s.ledgers i).load
      scans := Function.update s.scans i none }
  | .scan i now =>
    match s.scans i, (s.runtimes i).selectFrom (some (s.mesh.layers i)) (s.ledgers i) now with
    | none, .ok tasks =>
      some { s with scans := Function.update s.scans i (some ⟨tasks, s.mesh.layers i⟩) }
    | _, _ => none
  | .claim i taskId now =>
    match s.scans i with
    | some ⟨t :: ts, view⟩ =>
      if t.taskId = .str taskId then
        let o := (s.ledgers i).claimTask taskId now
        some { s with
          ledgers := Function.update s.ledgers i o.ledger
          scans := Function.update s.scans i (some ⟨ts, view⟩)
          claims := match o.ret with
            | .ok true => s.claims ++ [⟨i, t, view⟩]
            | _ => s.claims }
      else none
    | _ => none
  | .skip i =>
    match s.scans i with
    | some ⟨_ :: ts, view⟩ =>
      some { s with scans := Function.update s.scans i (some ⟨ts, view⟩) }
    | _ => none
  | .finish i => some { s with scans := Function.update s.scans i none }

end Fleet

/-- The topology of an event shows known keys only. -/
def FleetEvent.within {ι : Type} (N : Key → Prop) : FleetEvent ι → Prop
  | .mesh e => e.within N
  | _ => True

/-! ## Counting marks -/

namespace Fleet

section Marks

variable {ι : Type} [Fintype ι]

/-- How many nodes with a property a view has in a status. -/
def marks (key : ι → PyStr) (M : MembershipLayer) (p : ι → Prop) [DecidablePred p]
    (st : PeerStatus) : Nat :=
  (Finset.univ.filter (fun j => p j ∧ M.statusAt (.str (key j)) = some st)).card

/-- The keys of a fleet. -/
def Keyed (key : ι → PyStr) (k : Key) : Prop := ∃ j, k = .str (key j)

/-- The peers in a status are the nodes of one group and those of the other. -/
theorem count_eq_marks {key : ι → PyStr} (hkeys : Function.Injective key) {M : MembershipLayer}
    (hclean : Clean (Keyed key) M) (p : ι → Prop) [DecidablePred p] (st : PeerStatus) :
    M.count st = marks key M p st + marks key M (fun j => ¬ p j) st := by
  have hinj : Function.Injective (fun j => Key.str (key j)) := by
    intro a b hab
    exact hkeys (Key.str.inj hab)
  -- The entries of the table are those of nodes, each under its key.
  have hkeyset : (M.keysWhere (fun q => q.status = st)).toFinset =
      (Finset.univ.filter (fun j => M.statusAt (.str (key j)) = some st)).image
        (fun j => Key.str (key j)) := by
    ext k
    rw [List.mem_toFinset, mem_keysWhere_status, Finset.mem_image]
    constructor
    · intro hk
      have hknown : M.knows k := fun hnone => by
        rw [hnone] at hk
        exact (nomatch hk)
      rcases (hclean k hknown).1 with ⟨j, hj⟩
      rw [hj] at hk
      exact ⟨j, Finset.mem_filter.mpr ⟨Finset.mem_univ j, hk⟩, hj.symm⟩
    · rintro ⟨j, hj, hjk⟩
      rw [← hjk]
      exact (Finset.mem_filter.mp hj).2
  have hcount : M.count st =
      (Finset.univ.filter (fun j => M.statusAt (.str (key j)) = some st)).card := by
    unfold count
    rw [← List.toFinset_card_of_nodup (keysWhere_nodup M _), hkeyset,
      Finset.card_image_of_injective _ hinj]
  rw [hcount, ← Finset.card_filter_add_card_filter_not p, Finset.filter_filter,
    Finset.filter_filter]
  unfold marks
  simp only [and_comm]

/-- A group has room for its node, the ones that node takes for alive and the
    ones it has confirmed dead. -/
theorem marks_le {key : ι → PyStr} {M : MembershipLayer} (hclean : Clean (Keyed key) M)
    (p : ι → Prop) [DecidablePred p] {i : ι} (hown : M.ourKey = key i) (hi : p i) :
    1 + marks key M p .alive + marks key M p .dead ≤ (Finset.univ.filter p).card := by
  classical
  -- A node has no record of itself, so it is in neither of the two sets.
  have hnot : ∀ st, M.statusAt (.str (key i)) ≠ some st := by
    intro st hst
    have hknown : M.knows (.str (key i)) := fun hnone => by
      rw [hnone] at hst
      exact (nomatch hst)
    exact (hclean _ hknown).2 (by rw [hown])
  have hdisj : Disjoint
      (Finset.univ.filter (fun j => p j ∧ M.statusAt (.str (key j)) = some .alive))
      (Finset.univ.filter (fun j => p j ∧ M.statusAt (.str (key j)) = some .dead)) := by
    refine Finset.disjoint_filter.mpr (fun j _ halive hdead => ?_)
    rw [halive.2] at hdead
    exact (nomatch hdead.2)
  unfold marks
  rw [add_assoc, ← Finset.card_union_of_disjoint hdisj, add_comm, ← Finset.card_insert_of_notMem]
  · refine Finset.card_le_card (fun j hj => ?_)
    rcases Finset.mem_insert.mp hj with hji | hj
    · rw [hji]
      exact Finset.mem_filter.mpr ⟨Finset.mem_univ i, hi⟩
    · rcases Finset.mem_union.mp hj with hj | hj
      · exact Finset.mem_filter.mpr ⟨Finset.mem_univ j, (Finset.mem_filter.mp hj).2.1⟩
      · exact Finset.mem_filter.mpr ⟨Finset.mem_univ j, (Finset.mem_filter.mp hj).2.1⟩
  · intro hmem
    rcases Finset.mem_union.mp hmem with hj | hj
    · exact hnot _ (Finset.mem_filter.mp hj).2.2
    · exact hnot _ (Finset.mem_filter.mp hj).2.2

/-- What a view has across the split, with an alive node counted twice. -/
def across (key : ι → PyStr) (G : ι → Bool) (i : ι) (M : MembershipLayer) : Nat :=
  2 * marks key M (fun j => ¬ G j = G i) .alive + marks key M (fun j => ¬ G j = G i) .dead

/-- What a view has confirmed dead on its own side. -/
def lost (key : ι → PyStr) (G : ι → Bool) (i : ι) (M : MembershipLayer) : Nat :=
  marks key M (fun j => G j = G i) .dead

/-- With a quorum, twice one's own side and the marks across the split exceed
    the cluster and the losses of one's own side. -/
theorem votes_of_quorum {key : ι → PyStr} (hkeys : Function.Injective key) {M : MembershipLayer}
    (hclean : Clean (Keyed key) M) {i : ι} (hown : M.ourKey = key i)
    (hsize : M.clusterSize = Fintype.card ι) (hmany : 1 < Fintype.card ι)
    (hquorum : M.hasQuorum = true) (G : ι → Bool) :
    Fintype.card ι + lost key G i M + 1 ≤
      2 * (Finset.univ.filter (fun j => G j = G i)).card + across key G i M := by
  have hvotes := (hasQuorum_iff M (by omega)).mp hquorum
  rw [count_eq_marks hkeys hclean (fun j => G j = G i) .alive,
    count_eq_marks hkeys hclean (fun j => G j = G i) .dead, hsize] at hvotes
  have hroom := marks_le hclean (fun j => G j = G i) hown rfl
  unfold across lost
  push_cast at hvotes
  omega

end Marks

/-! ## Claims -/

/-- A claim of a selection made from a sound view of a node's configuration. -/
def Informed {ι : Type} (s : Fleet ι) (N : Key → Prop) (i : ι) (t : Task)
    (M : MembershipLayer) : Prop :=
  (∃ claimable out, (s.runtimes i).select (some M) claimable = .ok out ∧ t ∈ out) ∧
    Clean N M ∧ config M = config (s.mesh.layers i)

/-- The mesh is sound, and every selection and claim was informed. -/
structure Sound {ι : Type} (N : Key → Prop) (s : Fleet ι) : Prop where
  mesh : s.mesh.Sound N
  scans : ∀ i d, s.scans i = some d → ∀ t ∈ d.tasks, s.Informed N i t d.view
  claims : ∀ c ∈ s.claims, s.Informed N c.node c.task c.view

variable {ι : Type} {N : Key → Prop}

/-- Changing the ledgers and dropping selections keeps a fleet sound. -/
theorem sound_of_scans {s s' : Fleet ι} (hs : Sound N s) (hmesh : s'.mesh = s.mesh)
    (hruntimes : s'.runtimes = s.runtimes)
    (hscans : ∀ i d', s'.scans i = some d' → ∃ d, s.scans i = some d ∧ d'.view = d.view ∧
      ∀ t ∈ d'.tasks, t ∈ d.tasks)
    (hclaims : ∀ c ∈ s'.claims, c ∈ s.claims ∨
      ∃ d, s.scans c.node = some d ∧ c.view = d.view ∧ c.task ∈ d.tasks) : Sound N s' := by
  have hinf : ∀ i t M, s.Informed N i t M → s'.Informed N i t M := by
    intro i t M h
    unfold Informed at h ⊢
    rw [hmesh, hruntimes]
    exact h
  refine ⟨by rw [hmesh]; exact hs.mesh, fun i d' hd' t ht => ?_, fun c hc => ?_⟩
  · rcases hscans i d' hd' with ⟨d, hd, hview, htasks⟩
    rw [hview]
    exact hinf i t d.view (hs.scans i d hd t (htasks t ht))
  · rcases hclaims c hc with hold | ⟨d, hd, hview, htask⟩
    · exact hinf _ _ _ (hs.claims c hold)
    · rw [hview]
      exact hinf _ _ _ (hs.scans c.node d hd c.task htask)

/-- Dropping the first selected task. -/
theorem scans_tail {s : Fleet ι} {i : ι} {t : Task} {ts : List Task} {view : MembershipLayer}
    (hscan : s.scans i = some ⟨t :: ts, view⟩) (d' : Dispatch)
    (h : some (⟨ts, view⟩ : Dispatch) = some d') :
    ∃ d, s.scans i = some d ∧ d'.view = d.view ∧ ∀ u ∈ d'.tasks, u ∈ d.tasks := by
  rw [Option.some.injEq] at h
  rw [← h]
  exact ⟨_, hscan, rfl, fun u hu => List.mem_cons_of_mem _ hu⟩

variable [DecidableEq ι]

/-- Selections after those of one node are replaced by a part of them. -/
theorem scans_update {s : Fleet ι} {i : ι} {next : Option Dispatch}
    (hnext : ∀ d', next = some d' → ∃ d, s.scans i = some d ∧ d'.view = d.view ∧
      ∀ t ∈ d'.tasks, t ∈ d.tasks) (j : ι) (d' : Dispatch)
    (h : Function.update s.scans i next j = some d') :
    ∃ d, s.scans j = some d ∧ d'.view = d.view ∧ ∀ t ∈ d'.tasks, t ∈ d.tasks := by
  by_cases hj : j = i
  · rw [hj] at h ⊢
    rw [Function.update_self] at h
    exact hnext d' h
  · rw [Function.update_of_ne hj] at h
    exact ⟨d', h, rfl, fun _ ht => ht⟩

theorem step_sound {P : Primitives} {s s' : Fleet ι} {e : FleetEvent ι} (hs : Sound N s)
    (he : e.within N) (h : s.step P e = some s') :
    Sound N s' ∧ s'.runtimes = s.runtimes ∧
      ∀ j, config (s'.mesh.layers j) = config (s.mesh.layers j) := by
  cases e with
  | mesh e =>
      simp only [step] at h
      rcases Option.map_eq_some_iff.mp h with ⟨m, hm, hs'⟩
      rcases Mesh.step_sound hs.mesh he hm with ⟨hsound, hconfig⟩
      rw [← hs']
      -- The views are of the past, and the configuration is still the same.
      have hinf : ∀ i t M, s.Informed N i t M → Informed { s with mesh := m } N i t M :=
        fun i t M hi => ⟨hi.1, hi.2.1, hi.2.2.trans (hconfig i).symm⟩
      exact ⟨⟨hsound, fun i d hd t ht => hinf i t d.view (hs.scans i d hd t ht),
        fun c hc => hinf _ _ _ (hs.claims c hc)⟩, rfl, hconfig⟩
  | ledger i op =>
      simp only [step, Option.some.injEq] at h
      rw [← h]
      exact ⟨sound_of_scans hs rfl rfl (fun j d hd => ⟨d, hd, rfl, fun _ ht => ht⟩)
        (fun c hc => Or.inl hc), rfl, fun _ => rfl⟩
  | reload i =>
      simp only [step, Option.some.injEq] at h
      rw [← h]
      exact ⟨sound_of_scans hs rfl rfl (scans_update (fun _ hd => nomatch hd))
        (fun c hc => Or.inl hc), rfl, fun _ => rfl⟩
  | scan i now =>
      simp only [step] at h
      split at h
      · rename_i tasks hidle hselect
        rw [Option.some.injEq] at h
        rw [← h]
        refine ⟨⟨hs.mesh, fun j d hd t ht => ?_, hs.claims⟩, rfl, fun _ => rfl⟩
        -- The scan that has just been made is of the view of this moment.
        by_cases hj : j = i
        · rw [hj] at hd ⊢
          simp only [Function.update_self, Option.some.injEq] at hd
          rw [← hd] at ht ⊢
          refine ⟨?_, hs.mesh.clean i, rfl⟩
          unfold selectFrom at hselect
          split at hselect
          · exact (nomatch hselect)
          · exact ⟨_, tasks, hselect, ht⟩
        · simp only [Function.update_of_ne hj] at hd
          exact hs.scans j d hd t ht
      · exact (nomatch h)
  | claim i taskId now =>
      simp only [step] at h
      split at h
      · rename_i t ts view hscan
        by_cases hid : t.taskId = .str taskId
        · rw [if_pos hid, Option.some.injEq] at h
          rw [← h]
          refine ⟨sound_of_scans hs rfl rfl (scans_update (scans_tail hscan)) (fun c hc => ?_),
            rfl, fun _ => rfl⟩
          -- A claim that fails leaves the list as it was.
          simp only at hc
          split at hc
          · rcases List.mem_append.mp hc with hold | hnew
            · exact Or.inl hold
            · rw [List.mem_singleton.mp hnew]
              exact Or.inr ⟨_, hscan, rfl, List.mem_cons_self ..⟩
          · exact Or.inl hc
        · rw [if_neg hid] at h
          exact (nomatch h)
      · exact (nomatch h)
  | skip i =>
      simp only [step] at h
      split at h
      · rename_i t ts view hscan
        rw [Option.some.injEq] at h
        rw [← h]
        exact ⟨sound_of_scans hs rfl rfl (scans_update (scans_tail hscan))
          (fun c hc => Or.inl hc), rfl, fun _ => rfl⟩
      · exact (nomatch h)
  | finish i =>
      simp only [step, Option.some.injEq] at h
      rw [← h]
      exact ⟨sound_of_scans hs rfl rfl (scans_update (fun _ hd => nomatch hd))
        (fun c hc => Or.inl hc), rfl, fun _ => rfl⟩

/-- Over a run a fleet stays sound, and its nodes keep their configuration. -/
theorem run_sound {P : Primitives} {s t : Fleet ι} {es : List (FleetEvent ι)} (hs : Sound N s)
    (hes : Machine.Along (step P) (fun _ e => e.within N) s es)
    (hrun : Machine.run (step P) s es = some t) :
    Sound N t ∧ t.runtimes = s.runtimes ∧
      ∀ j, config (t.mesh.layers j) = config (s.mesh.layers j) := by
  refine Machine.invariant_run (step P)
    (fun u => Sound N u ∧ u.runtimes = s.runtimes ∧
      ∀ j, config (u.mesh.layers j) = config (s.mesh.layers j))
    (fun _ e => e.within N) ?_ ⟨hs, rfl, fun _ => rfl⟩ hes hrun
  intro u e u' hu he hstep
  rcases step_sound hu.1 he hstep with ⟨hsound, hruntimes, hconfig⟩
  exact ⟨hsound, hruntimes.trans hu.2.1, fun j => (hconfig j).trans (hu.2.2 j)⟩

/-! ## Rescues -/

/-- Nodes of both sides of a split rescue tasks only if what the two views have
    across the split makes up for the votes each of them lacks: twice the nodes
    taken for alive there, and those confirmed dead there, are then at least two
    more than what the views have confirmed dead on their own sides. -/
theorem rescues_one_side [Fintype ι] (P : Primitives) (s : Fleet ι) (hinit : s.Initial)
    (hkeys : s.mesh.Distinct) (hsize : ∀ i, (s.mesh.layers i).clusterSize = Fintype.card ι)
    (G : ι → Bool) (es : List (FleetEvent ι))
    (hes : Machine.Along (step P) (fun _ e => e.within (Keyed s.mesh.key)) s es) (t : Fleet ι)
    (hrun : Machine.run (step P) s es = some t) (c c' : ScanClaim ι) (hc : c ∈ t.claims)
    (hc' : c' ∈ t.claims) (hrescue : s.Rescue c) (hrescue' : s.Rescue c')
    (hmarks : across s.mesh.key G c.node c.view + across s.mesh.key G c'.node c'.view <
      lost s.mesh.key G c.node c.view + lost s.mesh.key G c'.node c'.view + 2) :
    G c.node = G c'.node := by
  have hsound : Sound (Keyed s.mesh.key) s :=
    ⟨Mesh.sound_initial hinit.mesh (fun i => ⟨i, rfl⟩),
      fun i d hd => by rw [hinit.scans i] at hd; exact (nomatch hd),
      fun c hc => by rw [hinit.claims] at hc; exact (List.not_mem_nil hc).elim⟩
  rcases run_sound hsound hes hrun with ⟨hsound', hruntimes, hconfig⟩
  by_contra hcross
  have hmany : 1 < Fintype.card ι :=
    Fintype.one_lt_card_iff.mpr ⟨c.node, c'.node, fun hc => hcross (by rw [hc])⟩
  -- Either claim was made with a quorum of its own view.
  have hvote : ∀ c ∈ t.claims, s.Rescue c →
      Fintype.card ι + lost s.mesh.key G c.node c.view + 1 ≤
        2 * (Finset.univ.filter (fun j => G j = G c.node)).card +
          across s.mesh.key G c.node c.view := by
    intro c hc hrescue
    rcases hsound'.claims c hc with ⟨⟨claimable, out, hselect, htask⟩, hclean, hview⟩
    rw [hruntimes] at hselect
    have hown : config c.view = config (s.mesh.layers c.node) := hview.trans (hconfig c.node)
    have hcluster : c.view.clusterSize = (s.mesh.layers c.node).clusterSize :=
      congrArg (fun x => x.2.2.1) hown
    refine votes_of_quorum hkeys hclean (congrArg Prod.fst hown) ?_ hmany
      (quorum_of_rescue hselect htask hrescue).1 G
    rw [hcluster, hsize]
  -- The two sides together are the whole cluster.
  have hsides : (Finset.univ.filter (fun j => G j = G c.node)).card +
      (Finset.univ.filter (fun j => G j = G c'.node)).card = Fintype.card ι := by
    have hother : ∀ j, G j = G c'.node ↔ ¬ G j = G c.node := by
      intro j
      have hflip : G c'.node = !G c.node := Bool.eq_not.mpr (Ne.symm hcross)
      rw [hflip]
      exact Bool.eq_not
    rw [Finset.filter_congr (fun j _ => hother j), Finset.card_filter_add_card_filter_not,
      Finset.card_univ]
  have hleft := hvote c hc hrescue
  have hright := hvote c' hc' hrescue'
  omega

end Fleet

/-! ## A node against two -/

namespace Sides

open Fleet

def key (i : Fin 3) : PyStr := lit (["a", "b", "c"].getD i.val "")

def side (i : Fin 3) : Bool := decide (i = 0)

def env (i : Fin 3) : MemberEnv where
  now := 11
  uuid := fun _ => key i
  tasksHeld := []
  shuffle := fun _ ks => ks
  shuffle_perm := fun _ _ => List.Perm.refl _

/-- A pending task of the shard of node `a`. -/
def job : Task where
  taskId := .str (lit "t")
  payload := .str (lit "p")
  shardId := .int 1
  status := .pending
  leasedBy := .none
  leaseExpires := .none
  result := .none
  createdAt := .float 0

/-- Three nodes that have just started and all hold the task. -/
def fleet : Fleet (Fin 3) where
  mesh := {
    layers := fun i => { ourKey := key i, ourShardId := (i.val : Int) + 1, clusterSize := 3 }
    running := fun _ => true
    sent := [] }
  ledgers := fun i => { ourKey := key i, tasks := Dict.empty.set (.str (lit "t")) job }
  runtimes := fun i => { shardId := (i.val : Int) + 1 }
  scans := fun _ => none
  claims := []

/-- Each node last heard of the others at the time given. -/
def seeds (times : Fin 3 → Fin 3 → ℚ) : List (FleetEvent (Fin 3)) :=
  (List.finRange 3).flatMap (fun i => ((List.finRange 3).filter (fun j => j ≠ i)).map (fun j =>
    .mesh (.beat i (.seed (times i j) (key j)))))

/-- At time 11 every node looks for silent peers. -/
def suspects : List (FleetEvent (Fin 3)) :=
  (List.finRange 3).map (fun i => .mesh (.beat i (.detect (env i))))

/-- A scan of a node that claims the task. -/
def scan (i : Fin 3) : List (FleetEvent (Fin 3)) := [.scan i 12, .claim i (lit "t") 12]

/-- Nodes `b` and `c` last heard of each other at 5, and nobody heard of anyone
    else since 0: the two suspect `a`, and `a` suspects them. -/
def apart : List (FleetEvent (Fin 3)) :=
  seeds (fun i j => if i ≠ 0 ∧ j ≠ 0 then 5 else 0) ++ suspects

theorem fleet_initial : fleet.Initial := ⟨⟨fun _ => rfl, rfl⟩, fun _ => rfl, rfl⟩

theorem fleet_distinct : fleet.mesh.Distinct := by
  have hkeys : ∀ i j, key i = key j → i = j := by decide +kernel
  exact fun i j hij => hkeys i j hij

/-- The topologies of a run show the three nodes only. -/
theorem apart_within (i j : Fin 3) (P : Primitives) :
    Machine.Along (step P) (fun _ e => e.within (Keyed fleet.mesh.key)) fleet
      (apart ++ scan i ++ scan j) := by
  refine Machine.along_of_forall _ _ _ _ (fun e he _ => ?_)
  rcases List.mem_append.mp he with he | he
  · rcases List.mem_append.mp he with he | he
    · rcases List.mem_append.mp he with he | he
      · rcases List.mem_flatMap.mp he with ⟨a, _, ha⟩
        rcases List.mem_map.mp ha with ⟨b, _, hb⟩
        rw [← hb]
        exact ⟨b, rfl⟩
      · rcases List.mem_map.mp he with ⟨a, _, ha⟩
        rw [← ha]
        trivial
    · rcases List.mem_pair.mp he with he | he
      · rw [he]
        trivial
      · rw [he]
        trivial
  · rcases List.mem_pair.mp he with he | he
    · rw [he]
      trivial
    · rw [he]
      trivial

/-- Who made a claim, of what, and the marks of the view it was made from. -/
def summary (c : ScanClaim (Fin 3)) : Fin 3 × Task × Nat × Nat :=
  (c.node, c.task, across key side c.node c.view, lost key side c.node c.view)

/-- Both nodes of the majority rescue the task. -/
theorem majority_rescues : ∃ t, Machine.run (step reference) fleet (apart ++ scan 1 ++ scan 2) =
    some t ∧ ∃ c ∈ t.claims, ∃ c' ∈ t.claims, c.node = 1 ∧ c'.node = 2 ∧
      side c.node = side c'.node := by
  have hrun : (Machine.run (step reference) fleet (apart ++ scan 1 ++ scan 2)).map
      (fun t => t.claims.map summary) = some [(1, job, 0, 0), (2, job, 0, 0)] := by decide +kernel
  rcases Option.map_eq_some_iff.mp hrun with ⟨t, ht, hclaims⟩
  refine ⟨t, ht, ?_⟩
  rcases List.map_eq_cons_iff.mp hclaims with ⟨c, rest, hlist, hc, hrest⟩
  rcases List.map_eq_cons_iff.mp hrest with ⟨c', rest', hlist', hc', _⟩
  simp only [summary, Prod.mk.injEq] at hc hc'
  have hmem : c ∈ t.claims := by
    rw [hlist]
    exact List.mem_cons_self ..
  have hmem' : c' ∈ t.claims := by
    rw [hlist, hlist']
    exact List.mem_cons_of_mem _ (List.mem_cons_self ..)
  refine ⟨c, hmem, c', hmem', hc.1, hc'.1, ?_⟩
  -- Both claims are rescues of one job, so they are on one side of the split.
  refine rescues_one_side reference fleet fleet_initial fleet_distinct (fun _ => rfl) side _
    (apart_within 1 2 reference) t ht c c' hmem hmem' ?_ ?_ ?_
  · unfold Rescue
    rw [hc.1, hc.2.1]
    decide
  · unfold Rescue
    rw [hc'.1, hc'.2.1]
    decide
  · have hkey : fleet.mesh.key = key := rfl
    rw [hkey, hc.2.2.1, hc.2.2.2, hc'.2.2.1, hc'.2.2.2]
    decide

/-- Whether an event hands a node a message. -/
def delivers : FleetEvent (Fin 3) → Bool
  | .mesh (.deliver ..) => true
  | .ledger _ (.update _) => true
  | _ => false

/-- Nodes `a` and `b`, on different sides of a split across which nothing is
    delivered, claim the same task: `a` because it is of its shard, `b` because
    with `c` it has a quorum and does not see `a` alive. -/
theorem both_claim : fleet.Initial ∧ fleet.mesh.Distinct ∧
    (∀ i, (fleet.mesh.layers i).clusterSize = Fintype.card (Fin 3)) ∧
    (∀ i, (fleet.ledgers i).find? (lit "t") = some job) ∧ job.status = .pending ∧
    (∀ e ∈ apart ++ scan 0 ++ scan 1, delivers e = false) ∧
    ∃ t, Machine.run (step reference) fleet (apart ++ scan 0 ++ scan 1) = some t ∧
      ∃ c ∈ t.claims, ∃ c' ∈ t.claims, c.task.taskId = c'.task.taskId ∧
        side c.node ≠ side c'.node := by
  refine ⟨fleet_initial, fleet_distinct, fun _ => rfl, fun _ => rfl, rfl, by decide +kernel, ?_⟩
  have hrun : (Machine.run (step reference) fleet (apart ++ scan 0 ++ scan 1)).map
      (fun t => t.claims.map summary) = some [(0, job, 0, 0), (1, job, 0, 0)] := by decide +kernel
  rcases Option.map_eq_some_iff.mp hrun with ⟨t, ht, hclaims⟩
  rcases List.map_eq_cons_iff.mp hclaims with ⟨c, rest, hlist, hc, hrest⟩
  rcases List.map_eq_cons_iff.mp hrest with ⟨c', rest', hlist', hc', _⟩
  simp only [summary, Prod.mk.injEq] at hc hc'
  refine ⟨t, ht, c, ?_, c', ?_, by rw [hc.2.1, hc'.2.1], by rw [hc.1, hc'.1]; decide⟩
  · rw [hlist]
    exact List.mem_cons_self ..
  · rw [hlist, hlist']
    exact List.mem_cons_of_mem _ (List.mem_cons_self ..)

end Sides

end WhisperNet
