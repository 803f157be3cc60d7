import Mathlib.Logic.Function.Basic
import WhisperNet.Lib.Machine
import WhisperNet.Membership.Effects

/-!
# A Mesh of Membership Layers

The membership layers of several nodes and the messages between them. A step
is one of a node's own operations, the delivery of a message that was sent to
it, or a node that stops or starts. Messages stay available once sent, so they
arrive late, out of order, several times or never. A node that starts has its
configuration and nothing else.

Every message of a mesh was made by one of its nodes, and that keeps the tables
clean: they hold only keys that came from a topology or are keys of nodes, and
never the node's own.

## Main definitions

* `Beat`: An operation a node performs of its own accord.
* `Mesh`: The layers, which nodes run, and what was sent.
* `MeshEvent`: An operation, a delivery, a stop or a start.
* `Mesh.step`: The mesh after an event.
* `MeshEvent.within`: The topology of an event shows known keys only.
* `Mesh.Sound`: Clean tables, and messages that name known keys.

## Theorems

* `Mesh.step_sound`: A sound mesh stays sound, and nodes keep their
  configuration.
* `Mesh.run_sound`: The same over a run.
-/

namespace WhisperNet

open MembershipLayer WhisperNet.Action

/-- What a membership layer does of its own accord. -/
inductive Beat
  | seed (now : ℚ) (peerKey : PyStr)
  | join (env : MemberEnv)
  | heartbeat (env : MemberEnv)
  | detect (env : MemberEnv)
  | sync (env : MemberEnv) (connectedKeys : List PyStr)

def Beat.act : Beat → Act Unit
  | .seed now peerKey => addPeer now peerKey
  | .join env => broadcastJoin env
  | .heartbeat env => broadcastHeartbeat env
  | .detect env => detectFailures env
  | .sync env connectedKeys => axlSync env connectedKeys

structure Mesh (ι : Type) where
  layers : ι → MembershipLayer
  running : ι → Bool
  sent : List Send

/-- `deliver i n` hands node `i` the `n`-th message that was sent. -/
inductive MeshEvent (ι : Type)
  | beat (i : ι) (b : Beat)
  | deliver (i : ι) (n : Nat) (env : MemberEnv) (fromPeer : PyVal)
  | stop (i : ι)
  | start (i : ι)

namespace Mesh

/-- The key of each node. -/
def key {ι : Type} (s : Mesh ι) (i : ι) : PyStr := (s.layers i).ourKey

/-- Different nodes have different keys. -/
def Distinct {ι : Type} (s : Mesh ι) : Prop := Function.Injective s.key

variable {ι : Type} [DecidableEq ι]

/-- A mesh where every node that runs has just started. -/
def Initial (s : Mesh ι) : Prop := (∀ i, s.layers i = (s.layers i).fresh) ∧ s.sent = []

/-- Run a computation at a node. -/
def perform (s : Mesh ι) (i : ι) (x : Act Unit) : Mesh ι :=
  { s with
    layers := Function.update s.layers i (x (s.layers i)).state
    sent := s.sent ++ (x (s.layers i)).out }

def step (s : Mesh ι) : MeshEvent ι → Option (Mesh ι)
  | .beat i b => if s.running i then some (s.perform i b.act) else none
  | .deliver i n env fromPeer =>
    match s.sent[n]? with
    | none => none
    | some o =>
      if s.running i ∧ o.dest = .str (s.layers i).ourKey then
        some (s.perform i (handleMessage env fromPeer o.msg))
      else none
  | .stop i => some { s with running := Function.update s.running i false }
  | .start i =>
    if s.running i then none
    else some { s with
      layers := Function.update s.layers i (s.layers i).fresh
      running := Function.update s.running i true }

theorem step_beat {s s' : Mesh ι} {i : ι} {b : Beat} (h : s.step (.beat i b) = some s') :
    s.running i = true ∧ s' = s.perform i b.act := by
  simp only [step] at h
  by_cases hr : s.running i = true
  · rw [if_pos hr, Option.some.injEq] at h
    exact ⟨hr, h.symm⟩
  · rw [if_neg hr] at h
    exact (nomatch h)

theorem step_deliver {s s' : Mesh ι} {i : ι} {n : Nat} {env : MemberEnv} {fromPeer : PyVal}
    (h : s.step (.deliver i n env fromPeer) = some s') :
    ∃ o, s.sent[n]? = some o ∧ s.running i = true ∧ o.dest = .str (s.layers i).ourKey ∧
      s' = s.perform i (handleMessage env fromPeer o.msg) := by
  simp only [step] at h
  cases hn : s.sent[n]? with
  | none =>
      rw [hn] at h
      exact (nomatch h)
  | some o =>
      simp only [hn] at h
      by_cases hr : s.running i = true ∧ o.dest = .str (s.layers i).ourKey
      · rw [if_pos hr, Option.some.injEq] at h
        exact ⟨o, rfl, hr.1, hr.2, h.symm⟩
      · rw [if_neg hr] at h
        exact (nomatch h)

theorem step_stop {s s' : Mesh ι} {i : ι} (h : s.step (.stop i) = some s') :
    s' = { s with running := Function.update s.running i false } := by
  simp only [step, Option.some.injEq] at h
  exact h.symm

theorem step_start {s s' : Mesh ι} {i : ι} (h : s.step (.start i) = some s') :
    s.running i = false ∧ s' = { s with
      layers := Function.update s.layers i (s.layers i).fresh
      running := Function.update s.running i true } := by
  simp only [step] at h
  cases hr : s.running i with
  | true =>
      rw [if_pos hr] at h
      exact (nomatch h)
  | false =>
      rw [hr, if_neg Bool.false_ne_true, Option.some.injEq] at h
      exact ⟨rfl, h.symm⟩

end Mesh

/-- The keys an event brings in from outside the mesh are known. -/
def MeshEvent.within {ι : Type} (N : Key → Prop) : MeshEvent ι → Prop
  | .beat _ (.seed _ peerKey) => N (.str peerKey)
  | .beat _ (.sync _ connectedKeys) => ∀ c ∈ connectedKeys, N (.str c)
  | _ => True

/-! ## Sound meshes -/

namespace Mesh

/-- Tables with known keys only, and messages that name known keys. -/
structure Sound {ι : Type} (N : Key → Prop) (s : Mesh ι) : Prop where
  clean : ∀ i, Clean N (s.layers i)
  sent : ∀ o ∈ s.sent, NamesOnly N o.msg
  own : ∀ i, N (.str (s.layers i).ourKey)

variable {ι : Type} {N : Key → Prop}

theorem sound_initial {s : Mesh ι} (h : s.Initial) (hown : ∀ i, N (.str (s.layers i).ourKey)) :
    Sound N s := by
  refine ⟨fun i k hk => ?_, fun o ho => ?_, hown⟩
  · rw [h.1 i] at hk
    exact (hk rfl).elim
  · rw [h.2] at ho
    exact (List.not_mem_nil ho).elim

/-- Each operation of a node stays in a frame, and neither marks a peer dead nor
    takes the mark off. -/
theorem beat_within {own : PyStr} (hown : N (.str own)) (i : ι) (b : Beat)
    (hb : (MeshEvent.beat i b).within N) :
    ∃ A, Within (memberFrame own N A) b.act ∧ (∀ k, ¬ A (.condemn k)) ∧ ∀ k, ¬ A (.revive k) := by
  cases b with
  | seed now peerKey =>
      refine ⟨fun c => c = .insert now (.str peerKey), addPeer_within now peerKey hb rfl, ?_, ?_⟩
      · exact fun k hk => absurd hk (by simp only [reduceCtorEq, not_false_eq_true])
      · exact fun k hk => absurd hk (by simp only [reduceCtorEq, not_false_eq_true])
  | join env =>
      exact ⟨fun _ => False, broadcastJoin_within env hown, fun _ hk => hk, fun _ hk => hk⟩
  | heartbeat env =>
      exact ⟨fun _ => False, broadcastHeartbeat_within env hown, fun _ hk => hk, fun _ hk => hk⟩
  | detect env =>
      exact ⟨ByTick, detectFailures_within env hown, fun _ hk => hk, fun _ hk => hk⟩
  | sync env connectedKeys =>
      exact ⟨BySync connectedKeys, axlSync_within env connectedKeys hown hb, fun _ hk => hk,
        fun _ hk => hk⟩

/-- The same whatever the keys. -/
theorem beat_within_any (own : PyStr) (b : Beat) :
    ∃ A, Within (memberFrame own (fun _ => True) A) b.act ∧ (∀ k, ¬ A (.condemn k)) ∧
      ∀ k, ¬ A (.revive k) := by
  refine beat_within trivial () b ?_
  cases b with
  | seed now peerKey => trivial
  | join env => trivial
  | heartbeat env => trivial
  | detect env => trivial
  | sync env connectedKeys => exact fun _ _ => trivial

variable [DecidableEq ι]

/-- A computation that stays in its frame keeps the configurations. -/
theorem perform_config {A : Change → Prop} (s : Mesh ι) (i : ι) {x : Act Unit}
    (hx : WithinAt (memberFrame (s.layers i).ourKey N A) x (s.layers i)) (j : ι) :
    config ((s.perform i x).layers j) = config (s.layers j) := by
  unfold Mesh.perform
  by_cases hj : j = i
  · rw [hj]
    simp only [Function.update_self]
    exact config_of_changes (hx.1 rfl)
  · simp only [Function.update_of_ne hj]

/-- A computation that stays in its frame keeps a mesh sound. -/
theorem perform_sound {A : Change → Prop} {s : Mesh ι} (hs : Sound N s) (i : ι) {x : Act Unit}
    (hx : WithinAt (memberFrame (s.layers i).ourKey N A) x (s.layers i)) :
    Sound N (s.perform i x) := by
  refine ⟨fun j => ?_, fun o ho => ?_, fun j => ?_⟩
  · unfold Mesh.perform
    by_cases hj : j = i
    · rw [hj]
      simp only [Function.update_self]
      exact clean_of_changes (hx.1 rfl) rfl (hs.clean i)
    · simp only [Function.update_of_ne hj]
      exact hs.clean j
  · rcases List.mem_append.mp ho with hold | hnew
    · exact hs.sent o hold
    · exact hx.2 o hnew rfl (hs.clean i)
  · have hkey : ((s.perform i x).layers j).ourKey = (s.layers j).ourKey :=
      congrArg Prod.fst (perform_config s i hx j)
    rw [hkey]
    exact hs.own j

theorem step_sound {s s' : Mesh ι} {e : MeshEvent ι} (hs : Sound N s) (he : e.within N)
    (h : s.step e = some s') :
    Sound N s' ∧ ∀ j, config (s'.layers j) = config (s.layers j) := by
  cases e with
  | beat i b =>
      rcases Mesh.step_beat h with ⟨_, hs'⟩
      rcases beat_within (hs.own i) i b he with ⟨A, hx, _⟩
      rw [hs']
      exact ⟨perform_sound hs i (hx _), perform_config s i (hx _)⟩
  | deliver i n env fromPeer =>
      rcases Mesh.step_deliver h with ⟨o, ho, _, _, hs'⟩
      have hmsg := hs.sent o (List.mem_of_getElem? ho)
      have hx : Within (memberFrame (s.layers i).ourKey N (ByMessage o.msg))
          (handleMessage env fromPeer o.msg) := handleMessage_within env fromPeer o.msg hmsg
      rw [hs']
      exact ⟨perform_sound hs i (hx _), perform_config s i (hx _)⟩
  | stop i =>
      rw [Mesh.step_stop h]
      exact ⟨⟨hs.clean, hs.sent, hs.own⟩, fun _ => rfl⟩
  -- A started process has an empty table under the same configuration.
  | start i =>
      rw [(Mesh.step_start h).2]
      have hconfig : ∀ j, config (Function.update s.layers i (s.layers i).fresh j) =
          config (s.layers j) := by
        intro j
        by_cases hj : j = i
        · rw [hj, Function.update_self]
          rfl
        · rw [Function.update_of_ne hj]
      refine ⟨⟨fun j => ?_, hs.sent, fun j => ?_⟩, hconfig⟩
      · by_cases hj : j = i
        · rw [hj]
          simp only [Function.update_self]
          exact clean_fresh N _
        · simp only [Function.update_of_ne hj]
          exact hs.clean j
      · have hkey := congrArg Prod.fst (hconfig j)
        simp only [config] at hkey
        rw [hkey]
        exact hs.own j

/-- A mesh stays sound over every run, and every node keeps its configuration. -/
theorem run_sound {s t : Mesh ι} {es : List (MeshEvent ι)} (hs : Sound N s)
    (hes : Machine.Along Mesh.step (fun _ e => e.within N) s es)
    (hrun : Machine.run Mesh.step s es = some t) :
    Sound N t ∧ ∀ j, config (t.layers j) = config (s.layers j) := by
  refine Machine.invariant_run Mesh.step
    (fun u => Sound N u ∧ ∀ j, config (u.layers j) = config (s.layers j))
    (fun _ e => e.within N) ?_ ⟨hs, fun _ => rfl⟩ hes hrun
  intro u e u' hu he hstep
  rcases step_sound hu.1 he hstep with ⟨hsound, hconfig⟩
  exact ⟨hsound, fun j => (hconfig j).trans (hu.2 j)⟩

end Mesh

end WhisperNet
