import WhisperNet.Demo.Poller
import WhisperNet.Lib.Passages

/-!
# The Time to Recovery

The web UI measures how long the cluster takes to recover from a death. Each
payload is compared with the one before: a node that was alive and is dead now
makes a kill event, and once no task is in progress every open kill event is
closed with a sample.

The status of a node in a payload is what the peers report of it, and a peer
suspects a node before it confirms it dead. A node that was shown suspected in
between is never both alive in one payload and dead in the next, so its death
makes no kill event. `measured_iff_straight` says that these are the only deaths
that are missed.

## Main definitions

* `Mttr`: The last statuses, the kill events and the samples.
* `updateMttr`: What a payload adds.
* `Recorder`: The same, with what was displayed so far.
* `Recorder.Measured`: One kill event for each death, and one sample for each
  that is closed.
* `displayedOf`: What the stored answers make of a node.
* `Straight`: Nobody who is displayed dead was displayed suspected after alive.

## Theorems

* `closeEvents_samples`: Each open event is closed with its sample.
* `updateMttr_follows`: The recorder counts the direct passages.
* `payload_displayed`: The statuses in a payload.
* `step_tracks`: What every event keeps.
* `step_even_iff`: When no death is missed.
* `measured_iff_straight`: Over any run.
* `Fading.unmeasured`: A death that is missed.
-/

namespace WhisperNet

structure KillEvent where
  ts : ℚ
  key : PyStr
  recoveredAt : Option ℚ := none
  deriving DecidableEq

/-- `_prev_node_status`, `_kill_events` and `_recovery_times`. -/
structure Mttr where
  prevNodeStatus : Dict PyStr NodeStatus := Dict.empty
  killEvents : List KillEvent := []
  recoveryTimes : List ℚ := []

/-- One node in the loop of `_update_mttr`. -/
def noteNode (now : ℚ) (m : Mttr) (n : NodeView) : Mttr :=
  { m with
    killEvents :=
      if m.prevNodeStatus.get? n.id = some .alive ∧ n.status = .dead then
        m.killEvents ++ [{ ts := now, key := n.id }]
      else m.killEvents
    prevNodeStatus := m.prevNodeStatus.set n.id n.status }

/-- The loop over the kill events: those not recovered are, each with a sample. -/
def closeEvents (now : ℚ) : List KillEvent → List KillEvent × List ℚ
  | [] => ([], [])
  | ev :: evs =>
    match ev.recoveredAt with
    | none => ({ ev with recoveredAt := some now } :: (closeEvents now evs).1,
        (now - ev.ts) :: (closeEvents now evs).2)
    | some _ => (ev :: (closeEvents now evs).1, (closeEvents now evs).2)

/-- `_update_mttr`. -/
def updateMttr (now : ℚ) (p : Payload) (m : Mttr) : Mttr :=
  let m' := p.nodes.foldl (noteNode now) m
  let inProg := (p.tasks.filter (fun t => t.status = .inProgress)).length
  if inProg = 0 ∧ p.tasks ≠ [] then
    { m' with
      killEvents := (closeEvents now m'.killEvents).1
      recoveryTimes := m'.recoveryTimes ++ (closeEvents now m'.killEvents).2 }
  else m'

/-- What the web UI measures, with the time and the nodes of each payload so far. -/
structure Recorder where
  mttr : Mttr := {}
  calls : List (ℚ × List NodeView) := []

/-- An event of the poller, with the recorder as what the web UI keeps. A browser
    is shown the samples and changes nothing. -/
def recorderStep (s : Poller Recorder) (e : PollEvent) : Option (Poller Recorder) :=
  s.step (fun now p r => ⟨updateMttr now p r.mttr, r.calls ++ [(now, p.nodes)]⟩) (fun _ => id) e

/-! ## What there is to measure -/

def NodeStatus.isSuspected (st : NodeStatus) : Bool := st = .suspected

/-- The deaths in a history of statuses: from alive to dead, with nothing but
    suspicions in between. -/
def deaths (h : List NodeStatus) : Nat := passagesVia NodeStatus.isSuspected .alive .dead h

/-- The statuses of the nodes with this key. -/
def statusesIn (key : PyStr) (nodes : List NodeView) : List NodeStatus :=
  (nodes.filter (fun n => n.id = key)).map NodeView.status

/-- The sample that closes a kill event. -/
def KillEvent.sample (ev : KillEvent) : Option ℚ := ev.recoveredAt.map (fun at' => at' - ev.ts)

namespace Recorder

variable (r : Recorder)

/-- The statuses that were displayed of a node, one after the other. -/
def history (key : PyStr) : List NodeStatus := r.calls.flatMap (fun c => statusesIn key c.2)

def times : List ℚ := r.calls.map Prod.fst

/-- The kill events of a node. -/
def kills (key : PyStr) : Nat := (r.mttr.killEvents.map KillEvent.key).count key

/-- Every death has its kill event and there are no others. Each kill event that
    is closed has one sample, and on a monotone clock none is negative. -/
structure Measured : Prop where
  deaths : ∀ key, r.kills key = deaths (r.history key)
  samples : r.mttr.recoveryTimes = r.mttr.killEvents.filterMap KillEvent.sample
  nonneg : r.times.Pairwise (· ≤ ·) → ∀ x ∈ r.mttr.recoveryTimes, 0 ≤ x

end Recorder

/-- What the peers say of all nodes, in the order of the answers. -/
def peerViews (states : NodeStates) : List PeerView :=
  states.flatMap (fun e => e.2.toList.flatMap (fun s => s.peers.values))

/-- The status of a node that answers: that of the first peer to suspect it or to
    have it dead. -/
def verdict (peers : List PeerView) (key : PyStr) : NodeStatus :=
  match peers.find? (fun p => p.fullKey = key ∧ (p.status = .suspected ∨ p.status = .dead)) with
  | none => .alive
  | some p => p.status.shown

/-- The keys and the statuses that a payload of these answers displays. -/
def displayed (states : NodeStates) : List (PyStr × NodeStatus) :=
  states.map (fun e => match e.2 with
    | none => ((nodeView e.1 none).id, .offline)
    | some s => (s.ourKey, verdict (peerViews states) s.ourKey))

/-- The statuses that it displays of one node. -/
def displayedOf (key : PyStr) (states : NodeStates) : List NodeStatus :=
  ((displayed states).filter (fun d => d.1 = key)).map Prod.snd

/-- At the end of a poll with a payload: no node is displayed dead that was last
    displayed suspected, and alive before it was suspected. -/
def Straight (s : Poller Recorder) : PollEvent → Prop
  | .finish _ => s.changed = true → s.stored.any (fun e => e.2.any Snapshot.unheld) = false →
    ∀ key pre post, displayedOf key s.stored = pre ++ .dead :: post →
      ¬ Resting NodeStatus.isSuspected .alive (s.app.history key ++ pre)
  | _ => True

/-! ## Closing -/

theorem closeEvents_stamps (now : ℚ) (evs : List KillEvent) :
    (closeEvents now evs).1.map (fun ev => (ev.key, ev.ts)) =
      evs.map (fun ev => (ev.key, ev.ts)) := by
  induction evs with
  | nil => rfl
  | cons ev evs ih =>
      rw [closeEvents]
      cases ev.recoveredAt with
      | none => simp only [List.map_cons, ih]
      | some at' => simp only [List.map_cons, ih]

theorem closeEvents_closed (now : ℚ) (evs : List KillEvent) :
    ∀ ev ∈ (closeEvents now evs).1, ev.recoveredAt ≠ none := by
  induction evs with
  | nil => exact fun ev hev => absurd hev List.not_mem_nil
  | cons ev evs ih =>
      rw [closeEvents]
      cases hrec : ev.recoveredAt with
      | none =>
          rw [List.forall_mem_cons]
          exact ⟨Option.some_ne_none now, ih⟩
      | some at' =>
          rw [List.forall_mem_cons, hrec]
          exact ⟨Option.some_ne_none at', ih⟩

/-- Open events have no sample. -/
theorem samples_eq_nil {evs : List KillEvent} (h : ∀ ev ∈ evs, ev.recoveredAt = none) :
    evs.filterMap KillEvent.sample = [] := by
  rw [List.filterMap_eq_nil_iff]
  intro ev hev
  rw [KillEvent.sample, h ev hev, Option.map_none]

/-- If the open events are the last ones, the samples of closing them come after
    those that there are. -/
theorem closeEvents_samples (now : ℚ) {evs : List KillEvent}
    (h : evs.Pairwise (fun a b => a.recoveredAt = none → b.recoveredAt = none)) :
    (closeEvents now evs).1.filterMap KillEvent.sample =
      evs.filterMap KillEvent.sample ++ (closeEvents now evs).2 := by
  induction evs with
  | nil => rfl
  | cons ev evs ih =>
      rw [List.pairwise_cons] at h
      rw [closeEvents]
      cases hrec : ev.recoveredAt with
      | none =>
          -- Whatever comes after an open event is open.
          have hopen : evs.filterMap KillEvent.sample = [] :=
            samples_eq_nil (fun ev' hev' => h.1 ev' hev' hrec)
          have hnone : ev.sample = none := by rw [KillEvent.sample, hrec, Option.map_none]
          simp only [List.filterMap_cons, hnone, ih h.2, hopen, List.nil_append]
          rfl
      | some at' =>
          have hsome : ev.sample = some (at' - ev.ts) := by
            rw [KillEvent.sample, hrec, Option.map_some]
          simp only [List.filterMap_cons, hsome, ih h.2, List.cons_append]

/-- A sample is the time since a kill event. -/
theorem mem_closeEvents {now x : ℚ} {evs : List KillEvent} (hx : x ∈ (closeEvents now evs).2) :
    ∃ ev ∈ evs, x = now - ev.ts := by
  induction evs with
  | nil => exact absurd hx List.not_mem_nil
  | cons ev evs ih =>
      have hrest : x ∈ (closeEvents now evs).2 → ∃ ev' ∈ ev :: evs, x = now - ev'.ts := by
        intro hmem
        rcases ih hmem with ⟨ev', hev', heq⟩
        exact ⟨ev', List.mem_cons_of_mem _ hev', heq⟩
      rw [closeEvents] at hx
      cases hrec : ev.recoveredAt with
      | none =>
          simp only [hrec] at hx
          rcases List.mem_cons.mp hx with heq | hmem
          · exact ⟨ev, List.mem_cons_self .., heq⟩
          · exact hrest hmem
      | some at' =>
          simp only [hrec] at hx
          exact hrest hx

/-! ## Recording -/

section Recording

variable {now : ℚ} {m : Mttr} {hist : PyStr → List NodeStatus}

/-- The recorder knows the last status in each history, and has a kill event for
    each direct passage from alive to dead. -/
structure Mttr.Follows (m : Mttr) (hist : PyStr → List NodeStatus) : Prop where
  prev : ∀ key, m.prevNodeStatus.get? key = (hist key).getLast?
  kills : ∀ key, (m.killEvents.map KillEvent.key).count key = passages .alive .dead (hist key)

/-- A node adds its status to its own history. -/
theorem noteNode_follows (h : m.Follows hist) (n : NodeView) :
    (noteNode now m n).Follows (fun key => hist key ++ statusesIn key [n]) := by
  have hown : statusesIn n.id [n] = [n.status] := by
    simp only [statusesIn, List.filter_cons, decide_true, if_true, List.filter_nil, List.map_cons,
      List.map_nil]
  have hother : ∀ key, n.id ≠ key → statusesIn key [n] = [] := by
    intro key hne
    simp only [statusesIn, List.filter_cons, decide_eq_false hne, Bool.false_eq_true, if_false,
      List.filter_nil, List.map_nil]
  constructor
  · intro key
    simp only [noteNode, Dict.get?_set]
    by_cases hkey : key = n.id
    · rw [if_pos hkey, hkey, hown, List.getLast?_concat]
    · rw [if_neg hkey, hother key (Ne.symm hkey), List.append_nil]
      exact h.prev key
  · intro key
    simp only [noteNode]
    by_cases hkey : n.id = key
    · -- The status before is the last of the history, so the test is for a passage.
      rw [← hkey, hown, passages_concat, ← h.kills, ← h.prev]
      split
      · simp only [List.map_append, List.map_cons, List.map_nil, List.count_append,
          List.count_singleton_self]
      · rw [Nat.add_zero]
    · rw [hother key hkey, List.append_nil, ← h.kills]
      split
      · have hnone : List.count key [n.id] = 0 := by
          rw [List.count_eq_zero, List.mem_singleton]
          exact fun hc => hkey hc.symm
        simp only [List.map_append, List.map_cons, List.map_nil, List.count_append, hnone,
          Nat.add_zero]
      · rfl

theorem statusesIn_cons (key : PyStr) (n : NodeView) (nodes : List NodeView) :
    statusesIn key (n :: nodes) = statusesIn key [n] ++ statusesIn key nodes := by
  unfold statusesIn
  rw [← List.map_append, ← List.filter_append, List.singleton_append]

theorem noteNodes_follows (h : m.Follows hist) (nodes : List NodeView) :
    (nodes.foldl (noteNode now) m).Follows (fun key => hist key ++ statusesIn key nodes) := by
  induction nodes generalizing m hist with
  | nil =>
      simp only [statusesIn, List.filter_nil, List.map_nil, List.append_nil, List.foldl_nil]
      exact h
  | cons n nodes ih =>
      rw [List.foldl_cons]
      have hrest := ih (@noteNode_follows now m hist h n)
      simp only [List.append_assoc, ← statusesIn_cons] at hrest
      exact hrest

/-- The loop over the nodes takes no sample, and the events it makes are open and
    of this moment. -/
theorem noteNodes_events (nodes : List NodeView) (m : Mttr) :
    (nodes.foldl (noteNode now) m).recoveryTimes = m.recoveryTimes ∧
      ∃ evs, (nodes.foldl (noteNode now) m).killEvents = m.killEvents ++ evs ∧
        ∀ ev ∈ evs, ev.ts = now ∧ ev.recoveredAt = none := by
  induction nodes generalizing m with
  | nil => exact ⟨rfl, [], (List.append_nil _).symm, fun ev hev => absurd hev List.not_mem_nil⟩
  | cons n nodes ih =>
      rw [List.foldl_cons]
      rcases ih (noteNode now m n) with ⟨htimes, evs, hevs, hopen⟩
      refine ⟨htimes, ?_⟩
      rw [hevs]
      simp only [noteNode]
      split
      · refine ⟨{ ts := now, key := n.id } :: evs, by rw [List.append_assoc, List.singleton_append],
          ?_⟩
        rw [List.forall_mem_cons]
        exact ⟨⟨rfl, rfl⟩, hopen⟩
      · exact ⟨evs, rfl, hopen⟩

/-- A payload adds to each history what it shows of the node. -/
theorem updateMttr_follows (h : m.Follows hist) (p : Payload) :
    (updateMttr now p m).Follows (fun key => hist key ++ statusesIn key p.nodes) := by
  have hnoted := @noteNodes_follows now m hist h p.nodes
  unfold updateMttr
  dsimp only
  split
  · -- Closing the events changes no key.
    refine ⟨hnoted.prev, fun key => ?_⟩
    rw [← hnoted.kills key]
    have hkeys := congrArg (List.map Prod.fst)
      (closeEvents_stamps now (p.nodes.foldl (noteNode now) m).killEvents)
    rw [List.map_map, List.map_map] at hkeys
    exact congrArg (List.count key) hkeys
  · exact hnoted

end Recording

/-! ## Samples -/

/-- The open events are the last ones, every closed event has its sample, and all
    times are those of payloads. -/
structure Recorder.Sampled (r : Recorder) : Prop where
  last : r.mttr.killEvents.Pairwise (fun a b => a.recoveredAt = none → b.recoveredAt = none)
  samples : r.mttr.recoveryTimes = r.mttr.killEvents.filterMap KillEvent.sample
  stamped : ∀ ev ∈ r.mttr.killEvents, ev.ts ∈ r.times
  nonneg : r.times.Pairwise (· ≤ ·) → ∀ x ∈ r.mttr.recoveryTimes, 0 ≤ x

/-- What a payload leaves to be closed. -/
theorem noteNodes_sampled {r : Recorder} (h : r.Sampled) (now : ℚ) (nodes : List NodeView) :
    Recorder.Sampled ⟨nodes.foldl (noteNode now) r.mttr, r.calls ++ [(now, nodes)]⟩ := by
  rcases @noteNodes_events now nodes r.mttr with ⟨htimes, evs, hevs, hopen⟩
  have hnow : Recorder.times ⟨nodes.foldl (noteNode now) r.mttr, r.calls ++ [(now, nodes)]⟩ =
      r.times ++ [now] := List.map_append
  constructor
  · simp only [hevs, List.pairwise_append]
    refine ⟨h.last, ?_, fun a _ b hb _ => (hopen b hb).2⟩
    exact List.pairwise_of_forall_mem_list (fun a _ b hb _ => (hopen b hb).2)
  · simp only [htimes, hevs, List.filterMap_append]
    rw [samples_eq_nil (fun ev hev => (hopen ev hev).2), List.append_nil]
    exact h.samples
  · rw [hnow]
    simp only [hevs]
    intro ev hev
    rcases List.mem_append.mp hev with hold | hnew
    · exact List.mem_append_left _ (h.stamped ev hold)
    · rw [(hopen ev hnew).1]
      exact List.mem_append_right _ (List.mem_singleton_self now)
  · rw [hnow]
    simp only [htimes]
    exact fun hsorted => h.nonneg (List.pairwise_append.mp hsorted).1

theorem updateMttr_sampled {r : Recorder} (h : r.Sampled) (now : ℚ) (p : Payload) :
    Recorder.Sampled ⟨updateMttr now p r.mttr, r.calls ++ [(now, p.nodes)]⟩ := by
  have hnoted := noteNodes_sampled h now p.nodes
  unfold updateMttr
  dsimp only
  split
  · constructor
    · exact List.pairwise_of_forall_mem_list
        (fun a ha _ _ hnone => absurd hnone (closeEvents_closed now _ a ha))
    · simp only [closeEvents_samples now hnoted.last]
      rw [hnoted.samples]
    · intro ev hev
      have hstamp := List.mem_map_of_mem (f := fun ev : KillEvent => (ev.key, ev.ts)) hev
      rw [closeEvents_stamps] at hstamp
      rcases List.mem_map.mp hstamp with ⟨ev', hev', heq⟩
      rw [← (Prod.mk.inj heq).2]
      exact hnoted.stamped ev' hev'
    · intro hsorted x hx
      rcases List.mem_append.mp hx with hold | hnew
      · exact hnoted.nonneg hsorted x hold
      · -- The event was made at the time of a payload, and this one is the latest.
        rcases mem_closeEvents hnew with ⟨ev, hev, heq⟩
        have hstamp := hnoted.stamped ev hev
        simp only [Recorder.times, List.map_append, List.map_cons, List.map_nil] at hstamp hsorted
        rw [heq, sub_nonneg]
        rcases List.mem_append.mp hstamp with hbefore | hsame
        · exact (List.pairwise_append.mp hsorted).2.2 _ hbefore _ (List.mem_singleton_self now)
        · exact le_of_eq (List.mem_singleton.mp hsame)
  · exact hnoted

/-! ## What is displayed -/

/-- The reports of the peers, one after the other, leave a node at the verdict on
    it if it answers. -/
theorem propagate_verdict (peers : List PeerView) (nodes : List NodeView) :
    (peers.foldl propagate nodes).map (fun n => (n.id, n.status)) =
      nodes.map (fun n => (n.id, if n.status = .alive then verdict peers n.id else n.status)) := by
  induction peers generalizing nodes with
  | nil =>
      refine List.map_congr_left (fun n _ => ?_)
      by_cases halive : n.status = .alive
      · rw [if_pos halive, halive]
        rfl
      · rw [if_neg halive]
  | cons peer peers ih =>
      rw [List.foldl_cons, ih, propagate]
      by_cases hbad : peer.status = .suspected ∨ peer.status = .dead
      · rw [if_pos hbad, List.map_map]
        refine List.map_congr_left (fun n _ => ?_)
        -- The first report that counts is this one, or one of the later ones.
        by_cases hmine : n.id = peer.fullKey ∧ n.status = .alive
        · have hshown : peer.status.shown ≠ .alive := by
            rcases hbad with hbad | hbad
            · rw [hbad]
              exact fun hc => NodeStatus.noConfusion hc
            · rw [hbad]
              exact fun hc => NodeStatus.noConfusion hc
          have hfound : verdict (peer :: peers) n.id = peer.status.shown := by
            have hcounts : peer.fullKey = n.id ∧ (peer.status = .suspected ∨ peer.status = .dead) :=
              ⟨hmine.1.symm, hbad⟩
            simp only [verdict, List.find?_cons, decide_eq_true hcounts]
          simp only [Function.comp, if_pos hmine]
          rw [if_neg hshown, if_pos hmine.2, hfound]
        · simp only [Function.comp, if_neg hmine]
          by_cases halive : n.status = .alive
          · have hother : ¬ peer.fullKey = n.id := fun hc => hmine ⟨hc.symm, halive⟩
            simp only [if_pos halive, verdict, List.find?_cons, hother, false_and, decide_false]
          · simp only [if_neg halive]
      · rw [if_neg hbad]
        refine List.map_congr_left (fun n _ => ?_)
        simp only [verdict, List.find?_cons, hbad, and_false, decide_false]

theorem payload_displayed {states : NodeStates} {p : Payload} (h : buildPayload states = .ok p) :
    p.nodes.map (fun n => (n.id, n.status)) = displayed states := by
  unfold buildPayload at h
  split at h
  · simp only [reduceCtorEq] at h
  · rw [← Except.ok.inj h, propagate_verdict, List.map_map, displayed]
    refine List.map_congr_left (fun e _ => ?_)
    cases hs : e.2 with
    | none => simp only [Function.comp, hs, nodeView, reduceCtorEq, if_false]
    | some s => simp only [Function.comp, hs, nodeView, if_true, peerViews]

/-- A payload adds to the history of a node what it displays of it. -/
theorem statusesIn_payload {states : NodeStates} {p : Payload} (h : buildPayload states = .ok p)
    (key : PyStr) : statusesIn key p.nodes = displayedOf key states := by
  rw [displayedOf, ← payload_displayed h, List.filter_map, List.map_map]
  rfl

/-! ## Runs -/

/-- What holds of the recorder in every run. -/
structure Recorder.Tracks (r : Recorder) : Prop where
  follows : r.mttr.Follows r.history
  sampled : r.Sampled

/-- No death was missed so far. -/
def Recorder.Even (r : Recorder) : Prop :=
  ∀ key, deaths (r.history key) = passages .alive .dead (r.history key)

theorem history_append (r : Recorder) (m : Mttr) (now : ℚ) (nodes : List NodeView) (key : PyStr) :
    Recorder.history ⟨m, r.calls ++ [(now, nodes)]⟩ key =
      r.history key ++ statusesIn key nodes := by
  simp only [Recorder.history, List.flatMap_append, List.flatMap_cons, List.flatMap_nil,
    List.append_nil]

theorem updateMttr_tracks {r : Recorder} (h : r.Tracks) (now : ℚ) (p : Payload) :
    Recorder.Tracks ⟨updateMttr now p r.mttr, r.calls ++ [(now, p.nodes)]⟩ := by
  refine ⟨?_, updateMttr_sampled h.sampled now p⟩
  have hhist : Recorder.history ⟨updateMttr now p r.mttr, r.calls ++ [(now, p.nodes)]⟩ =
      fun key => r.history key ++ statusesIn key p.nodes := funext (history_append r _ now p.nodes)
  rw [hhist]
  exact updateMttr_follows h.follows p

/-- Every event keeps what the recorder knows. -/
theorem step_tracks {s s' : Poller Recorder} {e : PollEvent} (h : s.app.Tracks)
    (hstep : recorderStep s e = some s') : s'.app.Tracks := by
  cases e with
  | answer state =>
      rw [(Poller.step_answer hstep).1]
      exact h
  | finish now =>
      rcases (Poller.step_finish hstep).2.2 with ⟨_, _, p, _, happ⟩ | ⟨_, _, _, happ⟩ | ⟨_, _, happ⟩
      · rw [happ]
        exact updateMttr_tracks h now p
      · rw [happ]
        exact h
      · rw [happ]
        exact h
  | connect =>
      rcases (Poller.step_connect hstep).2.2.2 with happ | ⟨p, _, happ⟩
      · rw [happ]
        exact h
      · rw [happ]
        exact h

/-- From a state where no death was missed, a step misses none if and only if it is
    straight. -/
theorem step_even_iff {s s' : Poller Recorder} {e : PollEvent} (h : s.app.Even)
    (hstep : recorderStep s e = some s') : s'.app.Even ↔ Straight s e := by
  cases e with
  | answer state =>
      rw [(Poller.step_answer hstep).1]
      exact iff_of_true h trivial
  | finish now =>
      rcases (Poller.step_finish hstep).2.2 with
        ⟨hchanged, _, p, hbuild, happ⟩ | ⟨_, _, hfails, happ⟩ | ⟨hchanged, _, happ⟩
      · have hheld := (buildPayload_ok_iff s.stored).mp ⟨p, hbuild⟩
        -- What a payload adds to one history is what the answers make of that node.
        have hone : ∀ key, deaths (s'.app.history key) =
            passages .alive .dead (s'.app.history key) ↔
            ∀ pre post, displayedOf key s.stored = pre ++ .dead :: post →
              ¬ Resting NodeStatus.isSuspected .alive (s.app.history key ++ pre) := by
          intro key
          rw [happ, history_append, statusesIn_payload hbuild, deaths, via_eq_iff rfl rfl]
          exact and_iff_right (h key)
        constructor
        · exact fun heven _ _ key => (hone key).mp (heven key)
        · exact fun hstraight key => (hone key).mpr (hstraight hchanged hheld key)
      · -- There is no payload.
        rw [happ]
        refine iff_of_true h (fun _ hheld => ?_)
        rcases (buildPayload_ok_iff s.stored).mpr hheld with ⟨p, hbuild⟩
        exact absurd hbuild (hfails p)
      · rw [happ]
        refine iff_of_true h (fun hc => ?_)
        rw [hchanged] at hc
        exact absurd hc Bool.false_ne_true
  | connect =>
      rcases (Poller.step_connect hstep).2.2.2 with happ | ⟨p, _, happ⟩
      · rw [happ]
        exact iff_of_true h trivial
      · rw [happ]
        exact iff_of_true h trivial

theorem measured_iff_even {r : Recorder} (h : r.Tracks) : r.Measured ↔ r.Even := by
  constructor
  · intro hm key
    rw [← hm.deaths key, Recorder.kills, h.follows.kills key]
  · refine fun heven => ⟨fun key => ?_, h.sampled.samples, h.sampled.nonneg⟩
    rw [heven key, Recorder.kills, h.follows.kills key]

theorem tracks_empty : Recorder.Tracks {} where
  follows := ⟨fun _ => rfl, fun _ => rfl⟩
  sampled :=
    { last := List.Pairwise.nil
      samples := rfl
      stamped := fun _ hev => absurd hev List.not_mem_nil
      nonneg := fun _ _ hx => absurd hx List.not_mem_nil }

/-- In every run of the poller: every death displayed has one kill event and every
    kill event that is closed has one sample, in every state, if and only if nobody
    is displayed dead after it was displayed suspected after alive. -/
theorem measured_iff_straight (ports : List Nat) (es : List PollEvent) :
    Machine.Throughout recorderStep (fun s => s.app.Measured) (Poller.start ports {}) es ↔
      Machine.Along recorderStep Straight (Poller.start ports {}) es := by
  rw [Machine.throughout_congr recorderStep (fun s => s.app.Tracks) (fun s => s.app.Measured)
    (fun s => s.app.Even) (fun _ _ _ => step_tracks) (fun _ => measured_iff_even) _ es tracks_empty]
  exact Machine.throughout_iff_along recorderStep (fun s => s.app.Even) Straight
    (fun _ _ _ => step_even_iff) _ es (fun _ => rfl)

/-! ## A death that is missed -/

namespace Fading

def node (ourKey peer : PyStr) (st : PeerStatus) : Snapshot where
  ourKey := ourKey
  peers := Dict.empty.set peer { fullKey := peer, status := st }
  tasks := Dict.empty
  named := fun _ he => absurd he List.not_mem_nil

/-- A poll of two nodes, the second of which reports the first in this status. -/
def poll (st : PeerStatus) (now : ℚ) : List PollEvent :=
  [.answer (some (node (lit "a") (lit "b") .alive)), .answer (some (node (lit "b") (lit "a") st)),
    .finish now]

def run : List PollEvent := poll .alive 0 ++ poll .suspected 2 ++ poll .dead 4

/-- A node is displayed alive, then suspected, then dead, and there is no kill
    event. -/
theorem unmeasured :
    ¬ Machine.Throughout recorderStep (fun s => s.app.Measured) (Poller.start [8888, 8889] {})
      run := by
  intro h
  have hend : ∃ s, Machine.run recorderStep (Poller.start [8888, 8889] {}) run = some s ∧
      s.app.history (lit "a") = [.alive, .suspected, .dead] ∧ s.app.mttr.killEvents = [] :=
    ⟨_, rfl, by decide +kernel, by decide +kernel⟩
  rcases hend with ⟨s, hrun, hhistory, hkills⟩
  have hone := (h.last hrun).deaths (lit "a")
  rw [hhistory, Recorder.kills, hkills] at hone
  exact absurd hone (by decide)

end Fading

end WhisperNet
