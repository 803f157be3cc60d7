import WhisperNet.Lib.Machine
import WhisperNet.Membership.Exceptions

/-!
# The Overlay a Node Watches

A node reads the topology when it starts and again in every sync. A sync
compares the snapshot with the one before: a key that was connected then and is
not now has dropped, and one that dropped and has been silent for half of
`suspect_after` is suspected at once.

A key drops in one sync only. Who was heard from shortly before that sync is
let off, and no later sync looks at it again, however long it stays away. So the
fast suspicion is complete as long as every key is silent for long enough
already when it drops.

## Main definitions

* `Overlay`: A membership layer with the snapshots it was shown.
* `OverlayEvent`: A message, or one of the periodic operations.
* `Overlay.step`, `Overlay.start`: The runs of a node.
* `Overlay.Away`: A key that was connected, and is since it dropped not.
* `Overlay.Complete`: After a sync, no such key is alive and silent.
* `Overlay.Timely`: No key that dropped in an earlier sync is.

## Theorems

* `silent_iff`: A peer is alive, and was not heard from in time.
* `silent_suspectSilent`: Who is silent once some keys have been suspected.
* `silent_axlSync`: Who that has no connection is silent after a sync.
* `Overlay.step_complete_iff`: One step.
* `Overlay.complete_iff`: When the fast suspicion is complete over a run.
* `Lingering.unsuspected`: A key that dropped just after a heartbeat.
-/

namespace WhisperNet

open MembershipLayer WhisperNet.Action

/-! ## Who is silent -/

namespace MembershipLayer

theorem silent_iff (s : MembershipLayer) (now limit : ℚ) (k : Key) :
    s.silent now limit k = true ↔
      ∃ p, s.peers.get? k = some p ∧ p.status = .alive ∧ now - p.lastSeen > limit := by
  unfold silent
  cases s.peers.get? k with
  | none => simp only [Bool.false_eq_true, reduceCtorEq, false_and, exists_false]
  | some p => simp only [Bool.and_eq_true, decide_eq_true_eq, Option.some.injEq, exists_eq_left']

/-- The records alone decide it. -/
theorem silent_congr {s t : MembershipLayer} {k : Key} (h : t.peers.get? k = s.peers.get? k)
    (now limit : ℚ) : t.silent now limit k = s.silent now limit k := by
  unfold silent
  rw [h]

theorem silent_setStatus (now limit : ℚ) (k k' : Key) (s : MembershipLayer) :
    (setStatus .suspected k s).silent now limit k' =
      (decide (k' ≠ k) && s.silent now limit k') := by
  unfold setStatus updatePeer
  cases hk : s.peers.get? k with
  | none =>
      by_cases hkk : k' = k
      · rw [hkk]
        simp only [silent, hk, Bool.and_false]
      · simp only [ne_eq, hkk, not_false_eq_true, decide_true, Bool.true_and]
  | some p =>
      by_cases hkk : k' = k
      · simp only [silent, Dict.get?_set, hkk, if_true, reduceCtorEq, decide_false,
          Bool.false_and, ne_eq, not_true]
      · simp only [silent, Dict.get?_set, hkk, if_false, ne_eq, not_false_eq_true, decide_true,
          Bool.true_and]

/-- Once some keys have been suspected for their silence, only others are silent. -/
theorem silent_suspectSilent (now limit : ℚ) (ks : List Key) (hks : ∀ k ∈ ks, IsText k)
    (k : Key) (s : MembershipLayer) :
    (suspectSilent now limit ks s).state.silent now limit k =
      (decide (k ∉ ks) && s.silent now limit k) := by
  induction ks generalizing s with
  | nil =>
      simp only [List.not_mem_nil, not_false_eq_true, decide_true, Bool.true_and]
      rfl
  | cons k₀ ks ih =>
      have hrest := ih (fun k' hk' => hks k' (List.mem_cons_of_mem _ hk'))
      unfold suspectSilent
      rw [read_bind]
      by_cases hsilent : s.silent now limit k₀ = true
      · rw [if_pos hsilent, modify_bind]
        have hlog := logKey_text (hks k₀ (List.mem_cons_self ..)) (setStatus .suspected k₀ s)
        rw [bind_ok (a := ()) (by rw [hlog]), hlog]
        have hreturns := suspectSilent_returns now limit ks
          (fun k' hk' => hks k' (List.mem_cons_of_mem _ hk')) (setStatus .suspected k₀ s)
        rcases hreturns with ⟨rest, hret⟩
        rw [bind_ok hret]
        change (suspectSilent now limit ks (setStatus .suspected k₀ s)).state.silent now limit k =
          _
        rw [hrest, silent_setStatus, ← Bool.and_assoc]
        congr 1
        simp only [List.mem_cons, not_or, ne_eq, Bool.decide_and, Bool.and_comm]
      · rw [if_neg hsilent, hrest]
        -- The first key is not silent, so it does not matter that it is on the list.
        by_cases hkk : k = k₀
        · rw [hkk, eq_false_of_ne_true hsilent, Bool.and_false, Bool.and_false]
        · simp only [List.mem_cons, hkk, false_or]

theorem logKey_state (k : Key) (s : MembershipLayer) : (logKey k s).state = s := by
  cases k with
  | str x => rfl
  | none => rfl
  | num q => rfl

/-- Adding keys leaves the records of the others alone. -/
theorem get?_discoverAll (now : ℚ) (ks : List Key) (k : Key) (hk : k ∉ ks)
    (s : MembershipLayer) : (each (discover now) ks s).state.peers.get? k = s.peers.get? k := by
  refine (within_each (F := keep (fun t => t.peers.get? k = s.peers.get? k) (fun _ => True)) ks
    (fun k' hk' t => ?_) s).1 rfl
  refine withinAt_read_bind ?_
  cases hpeer : t.peers.get? k' with
  | some p => exact within_pure () t
  | none =>
      have hne : k ≠ k' := fun hc => hk (hc ▸ hk')
      refine withinAt_bind (withinAt_modify (fun ht => ?_)) (fun _ _ => ?_)
      · exact (Dict.get?_set _ _ _ _).trans ((if_neg hne).trans ht)
      · exact withinAt_of_quiet (logKey_quiet k' _) (fun ht => (logKey_state k' _).symm ▸ ht)

/-- The keys that were connected at the last sync and are not now. -/
def dropped (s : MembershipLayer) (connectedKeys : List PyStr) : List Key :=
  (s.prevAxlConnected.dedup.filter (fun k => k ∉ connectedKeys)).map Key.str

theorem dropped_text (s : MembershipLayer) (connectedKeys : List PyStr) :
    ∀ k ∈ s.dropped connectedKeys, IsText k := by
  intro k hk
  rcases List.mem_map.mp hk with ⟨y, _, hy⟩
  exact ⟨y, hy.symm⟩

/-- A sync records the snapshot, adds the keys that are new, and suspects those
    that have dropped; what it sends changes nothing. -/
theorem axlSync_state (env : MemberEnv) (connectedKeys : List PyStr) (s : MembershipLayer) :
    (axlSync env connectedKeys s).state =
      (suspectSilent env.now (s.suspectAfter / 2) (s.dropped connectedKeys)
        (each (discover env.now) (s.unknown connectedKeys)
          (connect connectedKeys s)).state).state := by
  have htext := unknown_text s connectedKeys
  rcases returns_each (s.unknown connectedKeys)
    (fun k hk => discover_returns env.now (htext k hk)) (connect connectedKeys s) with ⟨u, hu⟩
  rcases suspectSilent_returns env.now (s.suspectAfter / 2) (s.dropped connectedKeys)
    (dropped_text s connectedKeys)
    (each (discover env.now) (s.unknown connectedKeys) (connect connectedKeys s)).state
    with ⟨newlySuspected, hns⟩
  unfold axlSync
  rw [read_bind, modify_bind, bind_ok hu]
  -- What follows the suspicions only sends.
  refine congrArg Effect.state (bind_ok hns _) |>.trans ?_
  refine (within_bind (F := still (fun _ _ => True)) (within_each _ (fun k _ t => ?_))
    (fun _ => within_each newlySuspected (fun k _ t => ?_)) _).1.symm
  · refine withinAt_read_bind ?_
    cases k with
    | num q => exact within_raise _ t
    | none => exact withinAt_emit trivial
    | str x => exact withinAt_emit trivial
  · exact withinAt_read_bind (withinAt_of_still (fanout_still env _ t) (fun _ _ => trivial))

/-- After a sync, a key without a connection is silent if it was before and has
    not dropped in this one. -/
theorem silent_axlSync (env : MemberEnv) (connectedKeys : List PyStr) (s : MembershipLayer)
    {x : PyStr} (hx : x ∉ connectedKeys) :
    (axlSync env connectedKeys s).state.silent env.now (s.suspectAfter / 2) (.str x) =
      (decide (x ∉ s.prevAxlConnected) && s.silent env.now (s.suspectAfter / 2) (.str x)) := by
  have hold : .str x ∉ s.unknown connectedKeys := by
    intro hmem
    rcases (mem_unknown s connectedKeys _).mp hmem with ⟨y, hy, hxy, _⟩
    exact hx (Key.str.inj hxy ▸ hy)
  have hdropped : .str x ∈ s.dropped connectedKeys ↔ x ∈ s.prevAxlConnected := by
    unfold dropped
    simp only [List.mem_map, List.mem_filter, List.mem_dedup, decide_eq_true_eq, Key.str.injEq,
      exists_eq_right, hx, not_false_eq_true, and_true]
  rw [axlSync_state, silent_suspectSilent _ _ _ (dropped_text s connectedKeys)]
  rw [silent_congr (get?_discoverAll env.now _ _ hold _)]
  simp only [hdropped]
  rfl

end MembershipLayer

/-! ## Runs -/

/-- A membership layer, the snapshots it was shown and what it sent. -/
structure Overlay where
  layer : MembershipLayer
  /-- the snapshot read when the node starts -/
  seeded : List PyStr
  /-- those of the syncs, the last one first -/
  past : List (List PyStr)
  /-- the time of the sync that was made last, if nothing has happened since -/
  synced : Option ℚ
  sent : List Send

inductive OverlayEvent
  | receive (env : MemberEnv) (fromPeer : PyVal) (msg : Msg)
  | heartbeat (env : MemberEnv)
  | detect (env : MemberEnv)
  | sync (env : MemberEnv) (connectedKeys : List PyStr)

def OverlayEvent.act : OverlayEvent → Act Unit
  | .receive env fromPeer msg => handleMessage env fromPeer msg
  | .heartbeat env => broadcastHeartbeat env
  | .detect env => detectFailures env
  | .sync env connectedKeys => axlSync env connectedKeys

def OverlayEvent.snapshot : OverlayEvent → Option (ℚ × List PyStr)
  | .sync env connectedKeys => some (env.now, connectedKeys)
  | _ => none

namespace Overlay

/-- `start`: seed the table from the topology, then announce the node. An
    exception while seeding is caught, and the announcement is made anyway. -/
def start (env : MemberEnv) (connectedKeys : List PyStr) (layer : MembershipLayer) : Overlay :=
  let seeding := each (addPeer env.now) connectedKeys layer.fresh
  let joining := broadcastJoin env seeding.state
  { layer := joining.state
    seeded := connectedKeys
    past := []
    synced := none
    sent := seeding.out ++ joining.out }

def step (s : Overlay) (e : OverlayEvent) : Option Overlay :=
  some { s with
    layer := (e.act s.layer).state
    past := (e.snapshot.map Prod.snd).toList ++ s.past
    synced := e.snapshot.map Prod.fst
    sent := s.sent ++ (e.act s.layer).out }

/-- The snapshot of the last sync. -/
def latest (s : Overlay) : List PyStr := s.past.head?.getD []

/-- A key that was connected at some sync, and has been absent from every one
    since it dropped. -/
def Away (s : Overlay) (x : PyStr) : Prop := x ∉ s.latest ∧ ∃ keys ∈ s.past, x ∈ keys

instance (s : Overlay) (x : PyStr) : Decidable (s.Away x) := inferInstanceAs (Decidable (_ ∧ _))

/-- Right after a sync, no peer that is away is alive and has been silent for
    more than half of `suspect_after`. -/
def Complete (s : Overlay) : Prop :=
  ∀ now, s.synced = some now → ∀ x, s.Away x → ∀ p, s.layer.peers.get? (.str x) = some p →
    now - p.lastSeen > s.layer.suspectAfter / 2 → p.status ≠ .alive

/-- No peer that dropped in an earlier sync and is still away is, before this
    one, alive and silent for more than half of `suspect_after`. -/
def Timely (s : Overlay) : OverlayEvent → Prop
  | .sync env connectedKeys => ∀ x, s.Away x → x ∉ connectedKeys →
      s.layer.silent env.now (s.layer.suspectAfter / 2) (.str x) = false
  | _ => True

/-- The layer compares with the snapshot of the last sync. -/
def Tracks (s : Overlay) : Prop := s.layer.prevAxlConnected = s.latest

end Overlay

/-- Only a sync replaces the snapshot. -/
theorem prevAxlConnected_of_changes {own : PyStr} {N : Key → Prop} {A : Change → Prop}
    {s t : MembershipLayer} (h : Changes own N A s t) (hA : ∀ ks, ¬ A (.connect ks)) :
    t.prevAxlConnected = s.prevAxlConnected := by
  induction h with
  | refl => rfl
  | tail _ hlast ih =>
      rcases hlast with ⟨c, hc, _, _, ht⟩
      rw [ht, ← ih]
      have hupdate : ∀ (u : MembershipLayer) k f,
          (updatePeer k f u).prevAxlConnected = u.prevAxlConnected := by
        intro u k f
        unfold updatePeer
        cases u.peers.get? k with
        | none => rfl
        | some p => rfl
      cases c with
      | advertise k f => exact hupdate _ k f
      | revive k => exact hupdate _ k _
      | suspect k => exact hupdate _ k _
      | condemn k => exact hupdate _ k _
      | insert now k => rfl
      | openReports k => rfl
      | addReport k r => rfl
      | seen v => rfl
      | connect ks => exact absurd hc (hA ks)

/-- What a sync does after it has recorded the snapshot. -/
theorem axlSync_changes (env : MemberEnv) (connectedKeys : List PyStr) (s : MembershipLayer) :
    Changes s.ourKey (fun _ => True) (fun c => ∀ ks, c ≠ .connect ks) (connect connectedKeys s)
      (axlSync env connectedKeys s).state := by
  rw [axlSync_state]
  have hfound : Changes s.ourKey (fun _ => True) (fun c => ∀ ks, c ≠ .connect ks)
      (connect connectedKeys s)
      (each (discover env.now) (s.unknown connectedKeys) (connect connectedKeys s)).state := by
    refine (within_each (F := memberFrame s.ourKey (fun _ => True) (fun c => ∀ ks, c ≠ .connect ks))
      _ (fun k hk => ?_) (connect connectedKeys s)).1 rfl
    refine discover_within env.now k ?_ trivial ?_
    · exact fun ks => by simp only [ne_eq, reduceCtorEq, not_false_eq_true]
    · -- The node's own key is none of the unknown ones.
      rcases (mem_unknown s connectedKeys k).mp hk with ⟨y, _, hky, hne, _⟩
      rw [hky]
      exact fun hc => hne (Key.str.inj hc)
  refine hfound.trans ((suspectSilent_within _ _ _ (fun k ks => ?_) _).1 ?_)
  · simp only [ne_eq, reduceCtorEq, not_false_eq_true]
  · rw [ourKey_of_changes hfound]
    rfl

namespace Overlay

variable {s s' : Overlay} {e : OverlayEvent}

theorem complete_iff_silent (s : Overlay) :
    s.Complete ↔ ∀ now, s.synced = some now → ∀ x, s.Away x →
      s.layer.silent now (s.layer.suspectAfter / 2) (.str x) = false := by
  refine forall_congr' (fun now => imp_congr_right (fun _ => forall_congr' (fun x =>
    imp_congr_right (fun _ => ?_))))
  rw [← Bool.not_eq_true, silent_iff]
  constructor
  · rintro h ⟨p, hp, halive, hlong⟩
    exact h p hp hlong halive
  · exact fun h p hp hlong halive => h ⟨p, hp, halive, hlong⟩

theorem step_tracks (hs : s.Tracks) (h : s.step e = some s') : s'.Tracks := by
  simp only [step, Option.some.injEq] at h
  -- All but a sync leave the snapshot, and the latest one, as they are.
  have hkept : ∀ A : Change → Prop, (∀ ks, ¬ A (.connect ks)) →
      Within (memberFrame s.layer.ourKey (fun _ => True) A) e.act → e.snapshot = none →
      s'.Tracks := by
    intro A hA hwithin hsnap
    unfold Tracks at hs ⊢
    rw [← h, prevAxlConnected_of_changes ((hwithin s.layer).1 rfl) hA, hs]
    unfold latest
    rw [hsnap]
    rfl
  cases e with
  | receive env fromPeer msg =>
      refine hkept (ByMessage msg) ?_
        (handleMessage_within env fromPeer msg (fun _ _ => trivial)) rfl
      rintro ks (hseen | ⟨_, hreport⟩ | ⟨_, hnews⟩)
      · exact absurd hseen (by simp only [reduceCtorEq, not_false_eq_true])
      · exact hreport
      · exact hnews
  | heartbeat env =>
      exact hkept (fun _ => False) (fun _ hc => hc) (broadcastHeartbeat_within env trivial) rfl
  | detect env =>
      exact hkept ByTick (fun _ hc => hc) (detectFailures_within env trivial) rfl
  | sync env connectedKeys =>
      unfold Tracks
      rw [← h]
      exact prevAxlConnected_of_changes (axlSync_changes env connectedKeys s.layer)
        (fun ks hc => hc ks rfl)

/-- Seeding adds keys to the table, which has no snapshot yet. -/
theorem seeding_keeps (now : ℚ) (keys : List PyStr) :
    Within (keep (fun t => t.prevAxlConnected = [] ∧ t.axlConnected = []) (fun _ : Send => False))
      (each (addPeer now) keys) := by
  refine within_each keys (fun x _ s => withinAt_read_bind ?_)
  split
  · refine withinAt_of_quiet (discover_quiet now _ s) (fun hs => ?_)
    unfold discover
    rw [read_bind]
    split
    · rw [modify_bind, logKey_state]
      exact hs
    · exact hs
  · exact within_pure () s

/-- So the announcement has no one to go to. -/
theorem start_eq (env : MemberEnv) (keys : List PyStr) (layer : MembershipLayer) :
    start env keys layer =
      { layer := (each (addPeer env.now) keys layer.fresh).state
        seeded := keys
        past := []
        synced := none
        sent := [] } := by
  have hseeding := seeding_keeps env.now keys layer.fresh
  have hnone := (hseeding.1 ⟨rfl, rfl⟩).2
  have hsilent : (each (addPeer env.now) keys layer.fresh).out = [] :=
    List.eq_nil_iff_forall_not_mem.mpr (fun o ho => hseeding.2 o ho ⟨rfl, rfl⟩)
  unfold start broadcastJoin
  simp only [read_bind, hnone, hsilent, List.map_nil]
  rfl

/-- Right after a step that is no sync there is nothing to check. After a sync,
    what dropped just now has been suspected, and the rest is as it was. -/
theorem step_complete_iff (hs : s.Tracks) (h : s.step e = some s') :
    s'.Complete ↔ s.Timely e := by
  simp only [step, Option.some.injEq] at h
  have hquiet : e.snapshot = none → s'.Complete := by
    intro hsnap now hnow
    rw [← h] at hnow
    simp only [hsnap, Option.map_none, reduceCtorEq] at hnow
  cases e with
  | receive env fromPeer msg => exact iff_of_true (hquiet rfl) trivial
  | heartbeat env => exact iff_of_true (hquiet rfl) trivial
  | detect env => exact iff_of_true (hquiet rfl) trivial
  | sync env connectedKeys =>
      have hlimit : s'.layer.suspectAfter = s.layer.suspectAfter := by
        have hconfig := config_of_changes (axlSync_changes env connectedKeys s.layer)
        rw [← h]
        exact congrArg (fun c => c.2.2.2) hconfig
      have haway : ∀ x, s'.Away x ↔
          x ∉ connectedKeys ∧ ∃ keys ∈ connectedKeys :: s.past, x ∈ keys := by
        intro x
        rw [← h]
        exact Iff.rfl
      rw [complete_iff_silent, hlimit]
      have hsilent : ∀ x, x ∉ connectedKeys →
          s'.layer.silent env.now (s.layer.suspectAfter / 2) (.str x) =
            (decide (x ∉ s.latest) &&
              s.layer.silent env.now (s.layer.suspectAfter / 2) (.str x)) := by
        intro x hx
        rw [← h, ← hs]
        exact silent_axlSync env connectedKeys s.layer hx
      constructor
      · intro hcomplete x hx hgone
        have hfast := hcomplete env.now (by rw [← h]; rfl) x
          ((haway x).mpr ⟨hgone, hx.2.imp (fun _ hk => ⟨List.mem_cons_of_mem _ hk.1, hk.2⟩)⟩)
        rw [hsilent x hgone, decide_eq_true hx.1, Bool.true_and] at hfast
        exact hfast
      · intro htimely now hnow x hx
        have hsame : now = env.now := by
          rw [← h] at hnow
          exact (Option.some.inj hnow).symm
        rcases (haway x).mp hx with ⟨hgone, keys, hkeys, hxk⟩
        rw [hsame, hsilent x hgone]
        -- The key dropped just now, or in an earlier sync.
        by_cases hlast : x ∈ s.latest
        · simp only [hlast, not_true, decide_false, Bool.false_and]
        · have hpast : keys ∈ s.past :=
            (List.mem_cons.mp hkeys).resolve_left (fun hc => hgone (hc ▸ hxk))
          rw [htimely x ⟨hlast, keys, hpast, hxk⟩ hgone, Bool.and_false]

/-- The fast suspicion is complete over a run if and only if at every sync the
    peers that dropped earlier and are still away are not alive and silent. -/
theorem complete_iff (env : MemberEnv) (connectedKeys : List PyStr) (layer : MembershipLayer)
    (es : List OverlayEvent) :
    Machine.Throughout step Complete (start env connectedKeys layer) es ↔
      Machine.Along step Timely (start env connectedKeys layer) es := by
  have htracks : (start env connectedKeys layer).Tracks := by
    rw [start_eq]
    exact ((seeding_keeps env.now connectedKeys layer.fresh).1 ⟨rfl, rfl⟩).1
  rw [Machine.throughout_congr step Tracks Complete (fun u => u.Complete ∧ u.Tracks)
    (fun u e u' hu h => step_tracks hu h) (fun u hu => (and_iff_left hu).symm) _ es htracks]
  refine Machine.throughout_iff_along step _ Timely (fun u e u' hu h => ?_) _ es
    ⟨fun now hnow => absurd hnow (by simp only [start, reduceCtorEq, not_false_eq_true]), htracks⟩
  rw [and_iff_left (step_tracks hu.2 h)]
  exact step_complete_iff hu.2 h

end Overlay

/-! ## A key that dropped just after a heartbeat -/

namespace Lingering

open Overlay

def env (now : ℚ) : MemberEnv := { MemberEnv.plain with now := now }

def node : MembershipLayer := { ourKey := lit "n" }

/-- Connected at time 0 and never heard from again. At time 4 the silence is too
    short, and at time 8 the key has not dropped. -/
def events : List OverlayEvent :=
  [.sync (env 0) [lit "a"], .sync (env 4) [], .sync (env 8) []]

/-- Of the peer that is away the table still has the first record. -/
theorem lingers : ∃ t, Machine.run step (start (env 0) [] node) events = some t ∧
    t.synced = some 8 ∧ t.Away (lit "a") ∧ t.layer.suspectAfter = 10 ∧
    t.layer.peers.get? (.str (lit "a")) = some { lastSeen := 0 } :=
  ⟨_, rfl, rfl, by decide +kernel, by decide +kernel, by decide +kernel⟩

theorem unsuspected : ¬ Machine.Throughout step Complete (start (env 0) [] node) events := by
  intro hall
  rcases lingers with ⟨t, hrun, hnow, haway, hafter, hpeer⟩
  refine hall.last hrun 8 hnow _ haway _ hpeer ?_ rfl
  rw [hafter]
  norm_num

end Lingering

end WhisperNet
