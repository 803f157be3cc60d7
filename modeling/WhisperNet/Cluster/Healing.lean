import Mathlib.Data.Fintype.Basic
import WhisperNet.Cluster.Mesh
import WhisperNet.Lib.Linked
import WhisperNet.Membership.Outreach

/-!
# Healing After a Partition

Whether the running nodes of a mesh can find each other again once their links
are restored. For a split of the running nodes that asks for one periodic
action of one node whose message goes to a node of the other group. A periodic
action reaches exactly the nodes that are not marked dead, so the mesh heals
when the graph of the marks that are missing cannot be cut in two.

A table loses the mark `DEAD` only when that peer is heard from, and it is
never heard from once nobody sends. So the marks decide. A step can break the
healing in two ways only: a suspicion that confirms a node dead at its
receiver, and a node that stops. `heals_iff` says that a run keeps healing if
and only if each of those leaves every split crossed by a node that has not
marked its opposite dead.

Two groups of two that suspect each other in silence break it: after the
reports are exchanged inside the groups, each has the other marked dead, and no
operation of any node sends across again.

## Main definitions

* `Mesh.opens`: A node has not marked another dead.
* `Mesh.Heals`: Every split is crossed by some periodic action.
* `Mesh.Mends`: The step leaves every split crossed.

## Theorems

* `heals_iff_linked`: Healing is a matter of the marks.
* `step_linked_iff`: A step keeps the mesh linked exactly when it mends.
* `heals_iff`: A run heals throughout exactly when its steps mend.
* `Split.no_way_back`: Two groups that have confirmed each other dead.
-/

namespace WhisperNet

open MembershipLayer WhisperNet.Action

namespace Mesh

/-- Node `i` has not marked node `j` dead. -/
def opens {ι : Type} (s : Mesh ι) (i j : ι) : Prop :=
  ¬ (s.layers i).deadAt (.str (s.layers j).ourKey)

/-- For every split of the running nodes into two groups, a periodic action of
    a running node sends to a node of the other group. A topology sync is given
    a topology that contains all of that group. -/
def Heals {ι : Type} (s : Mesh ι) : Prop :=
  ∀ G : ι → Bool, (∃ i, s.running i = true ∧ G i = true) →
    (∃ j, s.running j = true ∧ G j = false) →
    ∃ i j, s.running i = true ∧ s.running j = true ∧ G i ≠ G j ∧
      ∃ a : Outreach,
        a.covers (fun x => ∃ j', s.running j' = true ∧ G i ≠ G j' ∧ x = (s.layers j').ourKey) ∧
        a.reaches (s.layers i) (.str (s.layers j).ourKey)

theorem heals_iff_linked {ι : Type} [Fintype ι] (s : Mesh ι) (hs : Sound IsText s)
    (hkeys : s.Distinct) : s.Heals ↔ Linked s.running s.opens := by
  have hone : ∀ (G : ι → Bool) (i j : ι), s.running j = true → G i ≠ G j →
      ((∃ a : Outreach,
        a.covers (fun x => ∃ j', s.running j' = true ∧ G i ≠ G j' ∧ x = (s.layers j').ourKey) ∧
        a.reaches (s.layers i) (.str (s.layers j).ourKey)) ↔ s.opens i j) := by
    intro G i j hj hcross
    have hne : (s.layers j).ourKey ≠ (s.layers i).ourKey := fun hc => hcross (by
      rw [hkeys hc])
    refine exists_reaches_iff (s.layers i) (hs.clean i) _ hne _ ⟨j, hj, hcross, rfl⟩
      (Finset.univ.toList.map (fun j' => (s.layers j').ourKey)) ?_
    rintro y ⟨j', _, _, hy⟩
    rw [hy]
    exact List.mem_map.mpr ⟨j', Finset.mem_toList.mpr (Finset.mem_univ j'), rfl⟩
  constructor
  · intro h G hleft hright
    rcases h G hleft hright with ⟨i, j, hi, hj, hcross, hsend⟩
    exact ⟨i, j, hi, hj, hcross, (hone G i j hj hcross).mp hsend⟩
  · intro h G hleft hright
    rcases h G hleft hright with ⟨i, j, hi, hj, hcross, hopen⟩
    exact ⟨i, j, hi, hj, hcross, (hone G i j hj hcross).mpr hopen⟩

/-- A step that leaves every split of the running nodes crossed. A suspicion
    that confirms a node dead takes one mark away, a stop takes a node away,
    and nothing else takes any. -/
def Mends {ι : Type} [DecidableEq ι] (s : Mesh ι) : MeshEvent ι → Prop
  | .deliver i n _ fromPeer => ∀ o k, s.sent[n]? = some o →
      (s.layers i).confirms fromPeer o.msg = some k →
      Linked s.running (fun a b => s.opens a b ∧ ¬ (a = i ∧ .str (s.layers b).ourKey = k))
  | .stop i => Linked (Function.update s.running i false) s.opens
  | _ => True

/-- A topology shows nothing but strings. -/
theorem within_isText {ι : Type} (e : MeshEvent ι) : e.within IsText := by
  cases e with
  | beat i b =>
      cases b with
      | seed now peerKey => exact ⟨peerKey, rfl⟩
      | sync env connectedKeys => exact fun c _ => ⟨c, rfl⟩
      | join env => trivial
      | heartbeat env => trivial
      | detect env => trivial
  | deliver i n env fromPeer => trivial
  | stop i => trivial
  | start i => trivial

section Steps

variable {ι : Type} [DecidableEq ι] {s s' : Mesh ι}

/-- The marks after a computation at a node. -/
theorem opens_perform (i : ι) (x : Act Unit)
    (hkeys : ∀ j, ((s.perform i x).layers j).ourKey = (s.layers j).ourKey) (a b : ι) :
    (s.perform i x).opens a b ↔
      if a = i then ¬ (x (s.layers i)).state.deadAt (.str (s.layers b).ourKey)
      else s.opens a b := by
  unfold opens
  rw [hkeys b]
  unfold perform
  by_cases ha : a = i
  · rw [if_pos ha, ha]
    simp only [Function.update_self]
  · rw [if_neg ha]
    simp only [Function.update_of_ne ha]

/-- A computation that marks no one leaves the mesh linked. -/
theorem linked_perform (i : ι) (x : Act Unit)
    (hkeys : ∀ j, ((s.perform i x).layers j).ourKey = (s.layers j).ourKey)
    (hmarks : ∀ k, (x (s.layers i)).state.deadAt k → (s.layers i).deadAt k)
    (hlinked : Linked s.running s.opens) :
    Linked (s.perform i x).running (s.perform i x).opens := by
  refine linked_mono (fun a b _ _ hopen => ?_) hlinked
  rw [opens_perform i x hkeys a b]
  by_cases ha : a = i
  · rw [if_pos ha]
    intro hdead
    refine hopen ?_
    rw [ha]
    exact hmarks _ hdead
  · rw [if_neg ha]
    exact hopen

/-- From a linked mesh a step leads to a linked one exactly when it mends. -/
theorem step_linked_iff {e : MeshEvent ι} (hs : Sound IsText s)
    (hlinked : Linked s.running s.opens) (h : s.step e = some s') :
    Linked s'.running s'.opens ↔ s.Mends e := by
  have he : e.within IsText := within_isText e
  have hkeys : ∀ j, (s'.layers j).ourKey = (s.layers j).ourKey := fun j =>
    congrArg Prod.fst ((step_sound hs he h).2 j)
  cases e with
  | beat i b =>
      rcases step_beat h with ⟨_, hs'⟩
      rcases beat_within (hs.own i) i b he with ⟨A, hx, hA, _⟩
      rw [hs'] at hkeys ⊢
      refine iff_of_true (linked_perform i b.act hkeys (fun k hk => ?_) hlinked) trivial
      exact not_dead_of_changes hA ((hx (s.layers i)).1 rfl) k hk
  | deliver i n env fromPeer =>
      rcases step_deliver h with ⟨o, ho, _, _, hs'⟩
      rw [hs'] at hkeys ⊢
      cases hconf : (s.layers i).confirms fromPeer o.msg with
      | none =>
          refine iff_of_true (linked_perform i _ hkeys (fun k hk => ?_) hlinked) ?_
          · exact handleMessage_not_dead env fromPeer o.msg (s.layers i) hconf k hk
          · intro o' k ho' hk
            rw [ho, Option.some.injEq] at ho'
            rw [← ho', hconf] at hk
            exact (nomatch hk)
      | some k =>
          -- Exactly the mark of `k` at `i` is new.
          have hmark : ∀ a b, (s.perform i (handleMessage env fromPeer o.msg)).opens a b ↔
              s.opens a b ∧ ¬ (a = i ∧ .str (s.layers b).ourKey = k) := by
            intro a b
            rw [opens_perform i _ hkeys a b]
            by_cases ha : a = i
            · rw [if_pos ha, ha]
              unfold opens deadAt
              rw [handleMessage_confirms env fromPeer o.msg (s.layers i) k _ hconf,
                statusMoved_dead_iff (knows_of_confirms hconf), not_or]
              simp only [true_and]
            · rw [if_neg ha]
              simp only [ha, false_and, not_false_eq_true, and_true]
          rw [linked_congr (fun a b _ _ => hmark a b)]
          constructor
          · intro hcut o' k' ho' hk'
            rw [ho, Option.some.injEq] at ho'
            rw [← ho', hconf, Option.some.injEq] at hk'
            rw [← hk']
            exact hcut
          · exact fun hmends => hmends o k ho hconf
  | stop i =>
      rw [step_stop h]
      rfl
  | start i =>
      rcases step_start h with ⟨_, hs'⟩
      rw [hs']
      -- A node that has just started has marked no one.
      refine iff_of_true (linked_of_hub i ?_ (fun j _ _ => ?_)) trivial
      · exact Function.update_self i true s.running
      · unfold opens
        simp only [Function.update_self]
        exact fun hdead => nomatch hdead

end Steps

/-- A run of a mesh heals in every state exactly when all its steps mend. -/
theorem heals_iff {ι : Type} [Fintype ι] [DecidableEq ι] (s : Mesh ι) (hinit : s.Initial)
    (hkeys : s.Distinct) (es : List (MeshEvent ι)) :
    Machine.Throughout step Heals s es ↔ Machine.Along step Mends s es := by
  have hall : ∀ e : MeshEvent ι, e.within IsText := within_isText
  have hinv : ∀ (u : Mesh ι) e u', Sound IsText u ∧ u.Distinct → u.step e = some u' →
      Sound IsText u' ∧ u'.Distinct := by
    rintro u e u' ⟨hsound, hdist⟩ hstep
    rcases step_sound hsound (hall e) hstep with ⟨hsound', hconfig⟩
    refine ⟨hsound', fun i j hij => hdist ?_⟩
    have hkey : u'.key = u.key := funext (fun k => congrArg Prod.fst (hconfig k))
    rw [hkey] at hij
    exact hij
  have hsound : Sound IsText s := sound_initial hinit (fun i => ⟨_, rfl⟩)
  have hfresh : ∀ i j, s.opens i j := by
    intro i j hdead
    rw [hinit.1 i] at hdead
    exact (nomatch hdead)
  -- At the start no peer is dead to any other, so no two groups are apart.
  have hlinked : Linked s.running s.opens := by
    intro G hleft hright
    rcases hleft with ⟨i, hi, hGi⟩
    rcases hright with ⟨j, hj, hGj⟩
    exact ⟨i, j, hi, hj, by rw [hGi, hGj]; exact Bool.noConfusion, hfresh i j⟩
  rw [Machine.throughout_congr step (fun u => Sound IsText u ∧ u.Distinct) Heals
    (fun u => (Sound IsText u ∧ u.Distinct) ∧ Linked u.running u.opens) hinv
    (fun u hu => by rw [heals_iff_linked u hu.1 hu.2, and_iff_right hu]) s es ⟨hsound, hkeys⟩]
  refine Machine.throughout_iff_along step _ Mends ?_ s es ⟨⟨hsound, hkeys⟩, hlinked⟩
  intro u e u' hu hstep
  rw [and_iff_right (hinv u e u' hu.1 hstep)]
  exact step_linked_iff hu.1.1 hu.2 hstep

end Mesh

/-! ## Two groups that confirm each other dead -/

namespace Split

def key (i : Fin 4) : PyStr := lit (["a", "b", "c", "d"].getD i.val "")

/-- The id of a message is its sender and what it is about. -/
def env (i : Fin 4) (now : ℚ) : MemberEnv where
  now := now
  uuid := fun k => match k with
    | .str x => key i ++ x
    | _ => key i
  tasksHeld := []
  shuffle := fun _ ks => ks
  shuffle_perm := fun _ _ => List.Perm.refl _

/-- Four nodes that have just started. -/
def mesh : Mesh (Fin 4) where
  layers := fun i => { ourKey := key i, ourShardId := (i.val : Int) + 1, clusterSize := 4 }
  running := fun _ => true
  sent := []

/-- The other node of the group `a`, `b` or of the group `c`, `d`. -/
def mate (i : Fin 4) : Fin 4 := [1, 0, 3, 2].getD i.val 0

/-- Each node last heard of its mate at time 5 and of the others at time 0. -/
def seeds : List (MeshEvent (Fin 4)) :=
  (List.finRange 4).flatMap (fun i => (List.finRange 4).map (fun j =>
    .beat i (.seed (if j = mate i then 5 else 0) (key j))))

/-- At time 11 each node suspects the two nodes of the other group. -/
def suspects : List (MeshEvent (Fin 4)) :=
  (List.finRange 4).map (fun i => .beat i (.detect (env i 11)))

/-- Inside each group, a node receives its mate's two suspicions and then its
    own two back. -/
def reports : List (MeshEvent (Fin 4)) :=
  [(1, 0), (1, 3), (0, 6), (0, 9), (3, 14), (3, 17), (2, 20), (2, 23),
   (0, 24), (0, 27), (1, 30), (1, 33), (2, 38), (2, 41), (3, 44), (3, 47)].map
    (fun e => .deliver e.1 e.2 (env e.1 12) .none)

def history : List (MeshEvent (Fin 4)) := seeds ++ suspects ++ reports

theorem mesh_initial : mesh.Initial := ⟨fun _ => rfl, rfl⟩

theorem mesh_distinct : mesh.Distinct := by
  have hkeys : ∀ i j, key i = key j → i = j := by decide +kernel
  exact fun i j hij => hkeys i j hij

/-- While the tables fill, every split is crossed. -/
theorem seeds_heal : Machine.Throughout Mesh.step Mesh.Heals mesh seeds :=
  (Mesh.heals_iff mesh mesh_initial mesh_distinct seeds).mpr (by
    refine Machine.along_of_forall Mesh.step Mesh.Mends mesh seeds (fun e he u => ?_)
    rcases List.mem_flatMap.mp he with ⟨i, _, hi⟩
    rcases List.mem_map.mp hi with ⟨j, _, hj⟩
    rw [← hj]
    trivial)

/-- The nodes on different sides have marked each other dead. -/
def severed (s : Mesh (Fin 4)) : Bool :=
  (List.finRange 4).all (fun i => (List.finRange 4).all (fun j =>
    decide ((i < 2) = (j < 2)) ||
      decide ((s.layers i).statusAt (.str (s.layers j).ourKey) = some .dead)))

/-- A reachable state where all four nodes run and no periodic action of any of
    them sends to the other group. -/
theorem no_way_back : mesh.Initial ∧ mesh.Distinct ∧
    ∃ s, Machine.run Mesh.step mesh history = some s ∧ ¬ s.Heals := by
  refine ⟨mesh_initial, mesh_distinct, ?_⟩
  have hrun : (Machine.run Mesh.step mesh history).map
      (fun s => severed s && s.running 0 && s.running 2) = some true := by decide +kernel
  rcases Option.map_eq_some_iff.mp hrun with ⟨s, hs, hsevered⟩
  rw [Bool.and_eq_true, Bool.and_eq_true] at hsevered
  refine ⟨s, hs, fun hheals => ?_⟩
  rcases hheals (fun i => decide (i < 2)) ⟨0, hsevered.1.2, rfl⟩ ⟨2, hsevered.2, rfl⟩ with
    ⟨i, j, _, _, hcross, a, _, hreach⟩
  have hpair := List.all_eq_true.mp
    (List.all_eq_true.mp hsevered.1.1 i (List.mem_finRange i)) j (List.mem_finRange j)
  rw [Bool.or_eq_true, decide_eq_true_iff, decide_eq_true_iff] at hpair
  rcases hpair with hsame | hdead
  · exact hcross (by simp only [hsame])
  · exact not_dead_of_reaches (s.layers i) a _ hreach hdead

end Split

end WhisperNet
