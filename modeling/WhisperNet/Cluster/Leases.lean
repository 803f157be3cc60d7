import WhisperNet.Runtime.Node

/-!
# The Consensus on Lease Durations

Nodes tell each other their lease duration in heartbeats, and a node adopts the
least one it has heard of if that differs from its own by more than a tenth. A
step of the cluster is an operation of a membership layer, the delivery of one
of its messages at any later time and any number of times, a convergence tick,
or anything that happens to a ledger.

The initial durations are a set that nothing leaves: every duration in a
heartbeat, in a peer table and on a node is one of them. So is the least of
some, and a tick lowers the duration of a node or leaves it.

## Main definitions

* `Told`, `Adoptable`: A message that tells a duration of the set, if any, or one
  that is adopted.
* `Heard`: A membership layer that has heard durations of the set only.
* `LeaseNet`: The nodes, and the membership messages sent.
* `LeaseNet.step`: The cluster after an event.
* `LeaseNet.start`: Nodes that have just started, with their durations.

## Theorems

* `handleMessage_heard`, `beat_heard`: What a membership layer hears and tells.
* `consensus_mem`, `consensus_le`, `consensus_le_reported`: The consensus is a
  duration heard, and no greater than the node's own or any other.
* `LeaseNet.step_sound`: The invariant of a step.
* `lease_consensus`: Durations agree on each node, never rise, and are initial
  ones.
-/

namespace WhisperNet

open MembershipLayer WhisperNet.Action WhisperNode
open PyVal (get getD)

/-! ## What a membership layer hears and tells -/

section Layer

variable {V : ℚ → Prop} {own : ℚ} {T : Msg → Prop}

/-- A heartbeat that tells a duration of the set. -/
def Told (V : ℚ → Prop) (msg : Msg) : Prop :=
  get msg (lit "type") = .str (lit "heartbeat") →
    ∃ d, V d ∧ get msg (lit "lease_duration") = .float d

/-- The layer has this duration of its own, and every duration it has heard is
    one of the set. -/
def Heard (V : ℚ → Prop) (own : ℚ) (s : MembershipLayer) : Prop :=
  s.ourLeaseDuration = own ∧
    ∀ k p, s.peers.get? k = some p → ∀ d, p.reportedLeaseDuration = some (.num d) → V d

/-- A heartbeat whose duration, if it is adopted, is one of the set. -/
def Adoptable (V : ℚ → Prop) (msg : Msg) : Prop :=
  get msg (lit "type") = .str (lit "heartbeat") → (get msg (lit "lease_duration")).truthy = true →
    ∀ d, pyFloat (get msg (lit "lease_duration")) = .ok (.num d) → V d

theorem Told.adoptable {msg : Msg} (h : Told V msg) : Adoptable V msg := by
  intro htype _ d hd
  rcases h htype with ⟨told, hV, htold⟩
  rw [htold, pyFloat_float, Except.ok.injEq, PyFloat.num.injEq] at hd
  rw [← hd]
  exact hV

/-- What is relayed tells what it told. -/
theorem Told.relayed {msg relayed : Msg} (h : Told V msg)
    (hr : decHops msg = .ok (some relayed)) : Told V relayed := by
  intro htype
  unfold PyVal.get at htype ⊢
  rw [lookup_relayed hr (by decide)] at htype ⊢
  exact h htype

/-- What hears durations of the set sends messages of some kind. -/
def heardFrame (V : ℚ → Prop) (own : ℚ) (T : Msg → Prop) : Frame MembershipLayer Send :=
  keep (Heard V own) (fun o => T o.msg)

/-- What hears durations of the set tells durations of the set. -/
def leaseFrame (V : ℚ → Prop) (own : ℚ) : Frame MembershipLayer Send :=
  keep (Heard V own) (fun o => Told V o.msg)

theorem updatePeer_heard (k : Key) (f : PeerInfo → PeerInfo)
    (hf : ∀ p d, (f p).reportedLeaseDuration = some (.num d) →
      p.reportedLeaseDuration = some (.num d) ∨ V d) :
    Within (heardFrame V own T) (modify (updatePeer k f) : Act Unit) := by
  refine fun s => withinAt_modify (fun hs => ?_)
  unfold updatePeer
  cases hk : s.peers.get? k with
  | none => exact hs
  | some p =>
      refine ⟨hs.1, fun k' p' hp' d hd => ?_⟩
      simp only [Dict.get?_set] at hp'
      by_cases hkk : k' = k
      · rw [if_pos hkk, Option.some.injEq] at hp'
        rw [← hp'] at hd
        rcases hf p d hd with hold | hV
        · exact hs.2 k p hk d hold
        · exact hV
      · rw [if_neg hkk] at hp'
        exact hs.2 k' p' hp' d hd

/-- What changes neither the table nor the node's own duration. -/
theorem modify_heard {f : MembershipLayer → MembershipLayer} (hpeers : ∀ s, (f s).peers = s.peers)
    (hown : ∀ s, (f s).ourLeaseDuration = s.ourLeaseDuration) :
    Within (heardFrame V own T) (modify f : Act Unit) := by
  refine fun s => withinAt_modify (fun hs => ⟨(hown s).trans hs.1, fun k p hp d hd => ?_⟩)
  rw [hpeers] at hp
  exact hs.2 k p hp d hd

theorem logKey_heard (k : Key) : Within (heardFrame V own T) (logKey k) := by
  cases k with
  | str x => exact within_pure ()
  | none => exact within_raise _
  | num q => exact within_raise _

theorem discover_heard (now : ℚ) (k : Key) : Within (heardFrame V own T) (discover now k) := by
  refine fun s => withinAt_read_bind ?_
  cases s.peers.get? k with
  | some p => exact within_pure () s
  | none =>
      refine within_bind (fun t => withinAt_modify (fun ht => ?_)) (fun _ => logKey_heard k) s
      -- A peer that has just been found has reported nothing.
      refine ⟨ht.1, fun k' p' hp' d hd => ?_⟩
      simp only [insertPeer, Dict.get?_set] at hp'
      by_cases hkk : k' = k
      · rw [if_pos hkk, Option.some.injEq] at hp'
        rw [← hp'] at hd
        simp only [reduceCtorEq] at hd
      · rw [if_neg hkk] at hp'
        exact ht.2 k' p' hp' d hd

theorem setStatus_heard (st : PeerStatus) (k : Key) :
    Within (heardFrame V own T) (modify (setStatus st k) : Act Unit) :=
  updatePeer_heard k _ (fun _ _ h => Or.inl h)

theorem send_heard {k : Key} {msg : Msg} (hmsg : T msg) :
    Within (heardFrame V own T) (send k msg) := by
  cases k with
  | num q => exact within_raise _
  | none => exact fun s => withinAt_emit (fun _ => hmsg)
  | str x => exact fun s => withinAt_emit (fun _ => hmsg)

theorem fanout_heard (env : MemberEnv) {msg : Msg} (hmsg : T msg) :
    Within (heardFrame V own T) (fanout env msg) := fun s =>
  withinAt_read_bind (within_each _ (fun _ _ => send_heard hmsg) s)

theorem forward_heard (env : MemberEnv) {msg : Msg}
    (hrelay : ∀ relayed, decHops msg = .ok (some relayed) → T relayed) :
    Within (heardFrame V own T) (forward env msg) := by
  refine within_bind_attempt (fun r hr => ?_)
  cases r with
  | none => exact within_pure ()
  | some relayed => exact fanout_heard env (hrelay relayed hr)

theorem adopt_heard {α : Type} (k : Key) (v : PyVal) (given : Bool)
    (convert : PyVal → Except PyErr α) (store : α → PeerInfo → PeerInfo)
    (hstore : ∀ a p d, given = true → convert v = .ok a →
      (store a p).reportedLeaseDuration = some (.num d) →
        p.reportedLeaseDuration = some (.num d) ∨ V d) :
    Within (heardFrame V own T) (adopt k v given convert store) := by
  unfold adopt
  cases given with
  | false => exact within_pure ()
  | true =>
      rw [if_pos rfl]
      exact within_bind_attempt (fun a ha =>
        updatePeer_heard k (store a) (fun p d => hstore a p d rfl ha))

theorem revive_heard (k : Key) : Within (heardFrame V own T) (revive k) := by
  refine fun s => withinAt_read_bind ?_
  cases s.peers.get? k with
  | none => exact within_pure () s
  | some p =>
      by_cases hst : p.status ≠ .alive
      · simp only [if_pos hst]
        refine within_bind (fun t => withinAt_modify (fun ht => ?_)) (fun _ => logKey_heard k) s
        exact (setStatus_heard (T := T) .alive k t).1 ht
      · simp only [if_neg hst]
        exact within_pure () s

theorem onNodeJoin_heard (env : MemberEnv) {msg : Msg}
    (hrelay : ∀ relayed, decHops msg = .ok (some relayed) → T relayed) :
    Within (heardFrame V own T) (onNodeJoin env msg) := by
  refine fun s => withinAt_read_bind ?_
  split
  · refine within_bind (within_attempt _) (fun k => ?_) s
    refine within_bind (discover_heard env.now k) (fun _ => ?_)
    refine within_bind (updatePeer_heard k _ (fun _ _ h => Or.inl h)) (fun _ => ?_)
    refine within_bind (revive_heard k) (fun _ => ?_)
    refine within_bind (adopt_heard k _ _ _ _ (fun _ _ _ _ _ h => Or.inl h)) (fun _ => ?_)
    refine within_bind (adopt_heard k _ _ _ _ (fun _ _ _ _ _ h => Or.inl h)) (fun _ => ?_)
    refine within_bind (adopt_heard k _ _ _ _ (fun _ _ _ _ _ h => Or.inl h)) (fun _ => ?_)
    refine within_bind (adopt_heard k _ _ _ _ (fun _ _ _ _ _ h => Or.inl h)) (fun _ => ?_)
    exact forward_heard env hrelay
  · exact within_pure () s

/-- The duration a heartbeat tells is the only one that is stored. -/
theorem onHeartbeat_heard (env : MemberEnv) {msg : Msg} (hmsg : Adoptable V msg)
    (htype : get msg (lit "type") = .str (lit "heartbeat"))
    (hrelay : ∀ relayed, decHops msg = .ok (some relayed) → T relayed) :
    Within (heardFrame V own T) (onHeartbeat env msg) := by
  refine fun s => withinAt_read_bind ?_
  split
  · refine within_bind (within_attempt _) (fun k => ?_) s
    refine within_bind (discover_heard env.now k) (fun _ => ?_)
    refine within_bind (updatePeer_heard k _ (fun _ _ h => Or.inl h)) (fun _ => ?_)
    refine within_bind (updatePeer_heard k _ (fun _ _ h => Or.inl h)) (fun _ => ?_)
    refine within_bind (adopt_heard k _ _ _ _ (fun _ _ _ _ _ h => Or.inl h)) (fun _ => ?_)
    refine within_bind (adopt_heard k _ _ _ _ (fun _ _ _ _ _ h => Or.inl h)) (fun _ => ?_)
    refine within_bind (adopt_heard k _ _ _ _ (fun a p d htruthy hconvert hd => ?_)) (fun _ => ?_)
    -- The `lease_duration` of the heartbeat: what was converted is what it tells.
    · rw [Option.some.inj hd] at hconvert
      exact Or.inr (hmsg htype htruthy d hconvert)
    refine within_bind (adopt_heard k _ _ _ _ (fun _ _ _ _ _ h => Or.inl h)) (fun _ => ?_)
    refine within_bind (adopt_heard k _ _ _ _ (fun _ _ _ _ _ h => Or.inl h)) (fun _ => ?_)
    refine within_bind (revive_heard k) (fun _ => ?_)
    -- The peers that it lists are discovered, and bring no duration.
    refine within_bind (within_attempt _) (fun known => ?_)
    refine within_bind (within_each known (fun p _ => ?_)) (fun _ => forward_heard env hrelay)
    refine within_bind (within_attempt _) (fun k' t => withinAt_read_bind ?_)
    split
    · exact discover_heard env.now k' t
    · exact within_pure () t
  · exact within_pure () s

theorem onSuspicion_heard (env : MemberEnv) (fromPeer : PyVal) {msg : Msg}
    (hrelay : ∀ relayed, decHops msg = .ok (some relayed) → T relayed) :
    Within (heardFrame V own T) (onSuspicion env fromPeer msg) := by
  refine fun s => withinAt_read_bind ?_
  split
  · refine within_bind (within_attempt _) (fun k => within_bind (within_attempt _) (fun st => ?_)) s
    cases st with
    | true => exact within_pure ()
    | false =>
        refine within_bind (modify_heard (f := openReports k) (fun _ => rfl) (fun _ => rfl))
          (fun _ => ?_)
        refine within_bind (within_attempt _) (fun r => ?_)
        refine within_bind (modify_heard (f := addReport k r) (fun _ => rfl) (fun _ => rfl))
          (fun _ t => ?_)
        refine withinAt_read_bind ?_
        split
        · refine within_bind (setStatus_heard .dead k) (fun _ => ?_) t
          exact within_bind (logKey_heard k) (fun _ => forward_heard env hrelay)
        · exact forward_heard env hrelay t
  · exact within_pure () s

theorem handleMessage_heard (env : MemberEnv) (fromPeer : PyVal) {msg : Msg}
    (hmsg : Adoptable V msg)
    (hrelay : ∀ relayed, decHops msg = .ok (some relayed) → T relayed) :
    Within (heardFrame V own T) (handleMessage env fromPeer msg) := by
  refine fun s => withinAt_read_bind ?_
  split
  · refine within_bind (modify_heard (f := MembershipLayer.markSeen _) (fun _ => rfl)
      (fun _ => rfl)) (fun _ => ?_) s
    dsimp only
    split
    · rename_i htype
      exact onHeartbeat_heard env hmsg ((pyEq_str _ _).mp htype) hrelay
    · split
      · exact onSuspicion_heard env fromPeer hrelay
      · split
        · exact onNodeJoin_heard env hrelay
        · exact within_pure ()
  · exact within_pure () s

theorem suspectSilent_heard (now limit : ℚ) (ks : List Key) :
    Within (heardFrame V own T) (suspectSilent now limit ks) := by
  induction ks with
  | nil => exact within_pure []
  | cons k ks ih =>
      refine fun s => withinAt_read_bind ?_
      by_cases hk : s.silent now limit k = true
      · rw [if_pos hk]
        refine within_bind (setStatus_heard .suspected k) (fun _ => ?_) s
        exact within_bind (logKey_heard k) (fun _ => within_bind ih (fun _ => within_pure _))
      · rw [if_neg hk]
        exact ih s

theorem gossipSuspicion_heard (hT : ∀ msg, Told V msg → T msg) (env : MemberEnv) (k : Key) :
    Within (heardFrame V own T) (gossipSuspicion env k) := by
  refine fun s => withinAt_read_bind (fanout_heard env (hT _ (fun htype => ?_)) s)
  exact absurd (PyVal.str.inj htype) (by decide : lit "suspicion" ≠ lit "heartbeat")

theorem sendJoinTo_heard (hT : ∀ msg, Told V msg → T msg) (env : MemberEnv) (hops : Int)
    (k : Key) : Within (heardFrame V own T) (sendJoinTo env hops k) := by
  refine fun s => withinAt_read_bind (send_heard (hT _ (fun htype => ?_)) s)
  rw [PyVal.get, lookup_withEncPubkey _ _ _ (by decide)] at htype
  exact absurd (PyVal.str.inj htype) (by decide : lit "node_join" ≠ lit "heartbeat")

/-- A heartbeat tells the node's own duration. -/
theorem beat_heard (hT : ∀ msg, Told V msg → T msg) (b : Beat) (hown : V own) :
    Within (heardFrame V own T) b.act := by
  cases b with
  | seed now peerKey =>
      refine fun s => withinAt_read_bind ?_
      split
      · exact discover_heard now _ s
      · exact within_pure () s
  | join env =>
      exact fun s => withinAt_read_bind (within_each _ (fun k _ => sendJoinTo_heard hT env _ k) s)
  | heartbeat env =>
      intro s
      -- The duration in a heartbeat is that of the layer at that moment.
      by_cases hs : Heard V own s
      · refine withinAt_read_bind
          (within_each _ (fun k _ => send_heard (hT _ (fun _ => ⟨own, hown, ?_⟩))) s)
        rw [PyVal.get, lookup_withEncPubkey _ _ _ (by decide), ← hs.1]
        rfl
      · exact ⟨fun h => absurd h hs, fun _ _ h => absurd h hs⟩
  | detect env =>
      refine fun s => withinAt_read_bind (within_bind (suspectSilent_heard _ _ _) (fun ks => ?_) s)
      exact within_each ks (fun k _ => gossipSuspicion_heard hT env k)
  | sync env connectedKeys =>
      refine fun s => withinAt_read_bind (within_bind
        (modify_heard (f := connect connectedKeys) (fun _ => rfl) (fun _ => rfl)) (fun _ => ?_) s)
      refine within_bind (within_each _ (fun k _ => discover_heard env.now k)) (fun _ => ?_)
      refine within_bind (suspectSilent_heard _ _ _) (fun _ => ?_)
      refine within_bind (within_each _ (fun k _ => sendJoinTo_heard hT env 1 k)) (fun _ => ?_)
      exact within_each _ (fun k _ => gossipSuspicion_heard hT env k)

/-- On receipt of durations of the set, a layer tells durations of the set. -/
theorem handleMessage_told (env : MemberEnv) (fromPeer : PyVal) {msg : Msg} (hmsg : Told V msg) :
    Within (leaseFrame V own) (handleMessage env fromPeer msg) :=
  handleMessage_heard env fromPeer hmsg.adoptable (fun _ hr => hmsg.relayed hr)

theorem beat_told (b : Beat) (hown : V own) : Within (leaseFrame V own) b.act :=
  beat_heard (fun _ hmsg => hmsg) b hown

/-! ## The consensus -/

theorem mem_durations {s : MembershipLayer} {x : PyFloat} :
    x ∈ s.durations ↔ ∃ k p, s.peers.get? k = some p ∧ p.status ≠ .dead ∧
      p.reportedLeaseDuration = some x := by
  unfold durations
  rw [List.mem_filterMap]
  constructor
  · rintro ⟨p, hp, hreported⟩
    rcases (s.peers.mem_values p).mp hp with ⟨k, hk⟩
    by_cases hdead : p.status ≠ .dead
    · rw [if_pos hdead] at hreported
      exact ⟨k, p, hk, hdead, hreported⟩
    · rw [if_neg hdead] at hreported
      cases hreported
  · rintro ⟨k, p, hk, halive, hreported⟩
    exact ⟨p, (s.peers.mem_values p).mpr ⟨k, hk⟩, by rw [if_pos halive]; exact hreported⟩

/-- A consensus that is a number is the node's own duration or one it was told. -/
theorem consensus_num {s : MembershipLayer} {c : ℚ} (h : s.getConsensusLeaseDuration = .num c) :
    c = s.ourLeaseDuration ∨ .num c ∈ s.durations := by
  unfold getConsensusLeaseDuration at h
  cases hds : s.durations with
  | nil =>
      simp only [hds, PyFloat.num.injEq] at h
      exact Or.inl h.symm
  | cons d ds =>
      simp only [hds] at h
      have hmem := leastFloat_mem d (ds ++ [.num s.ourLeaseDuration])
      rw [h, ← List.cons_append, List.mem_append, List.mem_singleton] at hmem
      rcases hmem with hmem | hown
      · exact Or.inr hmem
      · exact Or.inl (PyFloat.num.inj hown)

/-- Unless the first duration is NaN, the consensus is a number no greater than any
    other that counts. -/
theorem consensus_least {s : MembershipLayer} (h : s.durations.head? ≠ some .nan) :
    ∃ c, s.getConsensusLeaseDuration = .num c ∧ c ≤ s.ourLeaseDuration ∧
      ∀ d, .num d ∈ s.durations → c ≤ d := by
  unfold getConsensusLeaseDuration
  cases hds : s.durations with
  | nil => exact ⟨s.ourLeaseDuration, rfl, le_rfl, fun d hd => (List.not_mem_nil hd).elim⟩
  | cons x xs =>
      cases x with
      | nan => exact (h (by rw [hds]; rfl)).elim
      | num q =>
          rcases leastFloat_num q (xs ++ [.num s.ourLeaseDuration]) with ⟨c, hc, hle, hall⟩
          refine ⟨c, hc, hall _ (List.mem_append_right _ (List.mem_singleton_self _)),
            fun d hd => ?_⟩
          rcases List.mem_cons.mp hd with heq | hmem
          · rw [PyFloat.num.inj heq]
            exact hle
          · exact hall d (List.mem_append_left _ hmem)

theorem consensus_nan {s : MembershipLayer} (h : s.durations.head? = some .nan) :
    s.getConsensusLeaseDuration = .nan := by
  unfold getConsensusLeaseDuration
  cases hds : s.durations with
  | nil => simp only [hds, List.head?_nil, reduceCtorEq] at h
  | cons x xs =>
      rw [hds, List.head?_cons, Option.some.injEq] at h
      simp only [h]
      exact leastFloat_nan _

theorem consensus_mem {s : MembershipLayer} (hs : Heard V own s) (hown : V own) {c : ℚ}
    (hc : s.getConsensusLeaseDuration = .num c) : V c := by
  rcases consensus_num hc with hsame | hmem
  · rw [hsame, hs.1]
    exact hown
  · rcases mem_durations.mp hmem with ⟨k, p, hk, _, hreported⟩
    exact hs.2 k p hk c hreported

theorem consensus_le {s : MembershipLayer} {c : ℚ} (hc : s.getConsensusLeaseDuration = .num c) :
    c ≤ s.ourLeaseDuration := by
  rcases consensus_least (s := s) (fun hnan => by rw [consensus_nan hnan] at hc; cases hc) with
    ⟨c', hc', hle, _⟩
  rw [PyFloat.num.inj (hc.symm.trans hc')]
  exact hle

end Layer

/-! ## The cluster -/

/-- The nodes, and every message of a membership layer sent so far. -/
structure LeaseNet (ι : Type) where
  nodes : ι → WhisperNode
  sent : List Send

/-- `deliver i n` hands node `i` the `n`-th message sent, which stays to be
    delivered again. `happen` is anything else at a node. -/
inductive LeaseEvent (ι : Type)
  | beat (i : ι) (b : Beat)
  | deliver (i : ι) (n : Nat) (env : NodeEnv) (fromPeer : PyVal)
  | happen (i : ι) (e : NodeEvent)

/-- The event is no operation of the membership layer, no message to it and no
    restart. -/
def NodeEvent.besides : NodeEvent → Bool
  | .beat _ => false
  | .receive _ _ msg => !isMembership msg
  | .restart _ => false
  | _ => true

namespace LeaseNet

variable {ι : Type}

/-- Nodes with these durations that have just started, each on any ledger file. -/
def start (nodes : ι → WhisperNode) (durations : ι → ℚ) : LeaseNet ι where
  nodes := fun i =>
    { nodes i with
      membership := { (nodes i).membership.fresh with ourLeaseDuration := durations i }
      ledger := { (nodes i).ledger with leaseDuration := durations i } }
  sent := []

variable [DecidableEq ι]

def step (P : Primitives) (s : LeaseNet ι) : LeaseEvent ι → Option (LeaseNet ι)
  | .beat i b =>
    let e := b.act (s.nodes i).membership
    some
      { nodes := Function.update s.nodes i { s.nodes i with membership := e.state }
        sent := s.sent ++ e.out }
  | .deliver i n env fromPeer =>
    match s.sent[n]? with
    | none => none
    | some o =>
      if isMembership o.msg ∧ o.dest = .str (s.nodes i).membership.ourKey then
        let r := (s.nodes i).receive P env fromPeer o.msg
        some
          { nodes := Function.update s.nodes i r.1
            sent := s.sent ++ r.2 }
      else none
  | .happen i e =>
    if e.besides then
      ((s.nodes i).step P e).map (fun node => { s with nodes := Function.update s.nodes i node })
    else none

end LeaseNet

/-! ## What a step does to the durations -/

theorem submit_membership (P : Primitives) (s : WhisperNode) (env : NodeEnv) (msg : Msg) :
    (s.handleP2pTaskSubmit P env msg).1.membership = s.membership := by
  unfold handleP2pTaskSubmit
  split
  · rfl
  · rfl

theorem award_membership (P : Primitives) (s : WhisperNode) (env : NodeEnv) (msg : Msg) :
    (s.handleTaskAward P env msg).1.membership = s.membership := by
  unfold handleTaskAward
  split
  · split
    · rfl
    · rfl
  · rfl

/-- Other messages leave the membership layer alone. -/
theorem receive_membership {P : Primitives} (s : WhisperNode) (env : NodeEnv) (fromPeer : PyVal)
    {msg : Msg} (h : isMembership msg = false) :
    (s.receive P env fromPeer msg).1.membership = s.membership := by
  unfold receive
  simp only [h, Bool.false_eq_true, if_false]
  split
  · rfl
  · split
    · exact submit_membership P s env msg
    · split
      · exact (bidRequest_frame s env).2
      · split
        · exact (bid_frame s).2
        · split
          · exact award_membership P s env msg
          · split
            · exact (result_frame s).2
            · split
              · rfl
              · split
                · rfl
                · rfl

/-- Only a convergence tick touches the duration of the ledger. -/
theorem step_duration {P : Primitives} {s s' : WhisperNode} {e : NodeEvent}
    (h : s.step P e = some s') (hconverge : e ≠ .converge) :
    s'.ledger.leaseDuration = s.ledger.leaseDuration := by
  have hcall : ∀ (L : TaskLedger) (c : Call), (c.run P L).1.leaseDuration = L.leaseDuration := by
    intro L c
    rcases run_worked P L c with ⟨_, _, _, hw⟩
    rw [hw]
  cases step_ledger h with
  | same heq => rw [heq]
  | update env fromPeer msg hevent htype heq =>
      rcases update_merged P s.ledger msg with ⟨_, _, hmerged⟩
      rw [heq, hmerged]
  | submit env taskId payload shardId submitterKey heq =>
      rw [heq]
      unfold TaskLedger.submitRaw
      cases hashKey taskId with
      | error e => rfl
      | ok k => rfl
  | call c heq =>
      rw [heq]
      exact hcall s.ledger c
  | converge consensus hevent heq => exact absurd hevent hconverge
  | restart now hevent heq =>
      rw [heq]
      exact hcall s.ledger.load (.recoverIdentity now)

/-- Of the other things that happen at a node, only a convergence tick touches
    the membership layer or the duration of the ledger. -/
theorem step_besides {P : Primitives} {s s' : WhisperNode} {e : NodeEvent}
    (h : s.step P e = some s') (he : e.besides = true) :
    s' = s.converge ∨
      s'.membership = s.membership ∧ s'.ledger.leaseDuration = s.ledger.leaseDuration := by
  by_cases hconverge : e = .converge
  · rw [hconverge] at h
    exact Or.inl (Option.some.inj h).symm
  refine Or.inr ⟨?_, ?_⟩
  · -- No other event touches the membership.
    cases e with
    | receive env fromPeer msg =>
        rw [← Option.some.inj h]
        exact receive_membership s env fromPeer (Bool.not_eq_true' _ ▸ he)
    | beat b => exact (nomatch he)
    | call c =>
        rw [← Option.some.inj h]
    | converge => exact absurd rfl hconverge
    | openAuction taskId =>
        rw [← Option.some.inj h]
    | closeAuction taskId =>
        rw [← Option.some.inj h]
    | openShares k needed own =>
        rw [← Option.some.inj h]
    | closeShares k =>
        rw [← Option.some.inj h]
    | drainResults =>
        rw [← Option.some.inj h]
    | restart now => exact (nomatch he)
  · exact step_duration h hconverge

/-! ## The invariant -/

namespace LeaseNet

variable {ι : Type}

/-- The initial duration of some node. -/
def Initially (durations : ι → ℚ) (d : ℚ) : Prop := ∃ j, d = durations j

/-- A node with one duration, which is an initial one, as are those it heard. -/
structure NodeSound (durations : ι → ℚ) (node : WhisperNode) : Prop where
  equal : node.ledger.leaseDuration = node.membership.ourLeaseDuration
  initial : Initially durations node.membership.ourLeaseDuration
  heard : Heard (Initially durations) node.membership.ourLeaseDuration node.membership

structure Sound (durations : ι → ℚ) (s : LeaseNet ι) : Prop where
  node : ∀ i, NodeSound durations (s.nodes i)
  told : ∀ o ∈ s.sent, Told (Initially durations) o.msg

theorem sound_start (nodes : ι → WhisperNode) (durations : ι → ℚ) :
    Sound durations (start nodes durations) where
  node := fun i => ⟨rfl, ⟨i, rfl⟩, rfl, fun _ _ hp => by
    exact (nomatch (Dict.get?_empty _).symm.trans hp)⟩
  told := fun _ ho => (List.not_mem_nil ho).elim

/-- A computation of the membership layer keeps a node sound, and its duration. -/
theorem NodeSound.perform {durations : ι → ℚ} {node node' : WhisperNode} {x : Act Unit}
    {T : Msg → Prop} (hs : NodeSound durations node)
    (hx : Within (heardFrame (Initially durations) node.membership.ourLeaseDuration T) x)
    (hmember : node'.membership = (x node.membership).state)
    (hledger : node'.ledger = node.ledger) :
    NodeSound durations node' ∧ node'.ledger.leaseDuration = node.ledger.leaseDuration ∧
      ∀ o ∈ (x node.membership).out, T o.msg := by
  have hheard := (hx node.membership).1 hs.heard
  have hown : node'.membership.ourLeaseDuration = node.membership.ourLeaseDuration := by
    rw [hmember]
    exact hheard.1
  refine ⟨⟨?_, ?_, ?_⟩, by rw [hledger], fun o ho => (hx node.membership).2 o ho hs.heard⟩
  · rw [hledger, hs.equal, hown]
  · rw [hown]
    exact hs.initial
  · rw [hown, hmember]
    exact hheard

/-- What leaves the membership layer and the duration alone. -/
theorem NodeSound.of_same {durations : ι → ℚ} {node node' : WhisperNode}
    (hs : NodeSound durations node) (hmember : node'.membership = node.membership)
    (hledger : node'.ledger.leaseDuration = node.ledger.leaseDuration) :
    NodeSound durations node' := by
  refine ⟨?_, ?_, ?_⟩
  · rw [hledger, hmember]
    exact hs.equal
  · rw [hmember]
    exact hs.initial
  · rw [hmember]
    exact hs.heard

/-- A tick adopts an initial duration that is no greater, or changes nothing. -/
theorem NodeSound.converge {durations : ι → ℚ} {node : WhisperNode}
    (hs : NodeSound durations node) :
    NodeSound durations node.converge ∧
      node.converge.ledger.leaseDuration ≤ node.ledger.leaseDuration := by
  rcases node.converge_cases with hsame | ⟨c, hc, hfar, hadopts⟩
  · rw [hsame]
    exact ⟨hs, le_refl _⟩
  · have hduration : (node.ledger.converge c).leaseDuration = c := by
      unfold TaskLedger.converge
      rw [if_pos hfar]
    rw [hadopts]
    refine ⟨⟨hduration, consensus_mem hs.heard hs.initial hc, ⟨rfl, hs.heard.2⟩⟩, ?_⟩
    dsimp only
    rw [hduration, hs.equal]
    exact consensus_le hc

variable [DecidableEq ι]

/-- A step that changes one node, keeps it sound and sends what is true. -/
theorem Sound.set {durations : ι → ℚ} {s : LeaseNet ι} (hs : Sound durations s) {i : ι}
    {node : WhisperNode} {out : List Send} (hnode : NodeSound durations node)
    (hle : node.ledger.leaseDuration ≤ (s.nodes i).ledger.leaseDuration)
    (hout : ∀ o ∈ out, Told (Initially durations) o.msg) :
    Sound durations ⟨Function.update s.nodes i node, s.sent ++ out⟩ ∧
      ∀ j, (Function.update s.nodes i node j).ledger.leaseDuration ≤
        (s.nodes j).ledger.leaseDuration := by
  refine ⟨⟨fun j => ?_, fun o ho => ?_⟩, fun j => ?_⟩
  · change NodeSound durations (Function.update s.nodes i node j)
    by_cases hj : j = i
    · rw [hj, Function.update_self]
      exact hnode
    · rw [Function.update_of_ne hj]
      exact hs.node j
  · rcases List.mem_append.mp ho with hold | hnew
    · exact hs.told o hold
    · exact hout o hnew
  · by_cases hj : j = i
    · rw [hj, Function.update_self]
      exact hle
    · rw [Function.update_of_ne hj]

theorem step_sound {P : Primitives} {durations : ι → ℚ} {s s' : LeaseNet ι} {e : LeaseEvent ι}
    (hs : Sound durations s) (h : s.step P e = some s') :
    Sound durations s' ∧
      ∀ i, (s'.nodes i).ledger.leaseDuration ≤ (s.nodes i).ledger.leaseDuration := by
  cases e with
  | beat i b =>
      rw [← Option.some.inj h]
      have hmember : ({ s.nodes i with membership := (b.act (s.nodes i).membership).state } :
          WhisperNode).membership = (b.act (s.nodes i).membership).state := rfl
      rcases (hs.node i).perform (T := Told _) (beat_told b (hs.node i).initial) hmember rfl
        with ⟨hnode, hdur, hout⟩
      exact hs.set hnode (le_of_eq hdur) hout
  -- A membership message tells a duration of a node; no other message changes one.
  | deliver i n env fromPeer =>
      simp only [step] at h
      cases hn : s.sent[n]? with
      | none =>
          rw [hn] at h
          simp only [reduceCtorEq] at h
      | some o =>
          simp only [hn] at h
          by_cases hc : isMembership o.msg = true ∧ o.dest = .str (s.nodes i).membership.ourKey
          · rw [if_pos hc, Option.some.injEq] at h
            have hmsg := hs.told o (List.mem_of_getElem? hn)
            rw [receive_member P _ env fromPeer hc.1] at h
            rw [← h]
            have hmember : ({ s.nodes i with membership :=
                (handleMessage env.member fromPeer o.msg (s.nodes i).membership).state } :
                WhisperNode).membership =
              (handleMessage env.member fromPeer o.msg (s.nodes i).membership).state := rfl
            rcases (hs.node i).perform (T := Told _) (handleMessage_told env.member fromPeer hmsg)
              hmember rfl with ⟨hnode, hdur, hout⟩
            exact hs.set hnode (le_of_eq hdur) hout
          · rw [if_neg hc] at h
            simp only [reduceCtorEq] at h
  | happen i e =>
      simp only [step] at h
      by_cases he : e.besides = true
      · rw [if_pos he] at h
        rcases Option.map_eq_some_iff.mp h with ⟨node, hnode, heq⟩
        rw [← heq]
        have hnone : s.sent = s.sent ++ [] := (List.append_nil _).symm
        rw [hnone]
        rcases step_besides hnode he with htick | ⟨hmember, hledger⟩
        · rw [htick]
          exact hs.set (hs.node i).converge.1 (hs.node i).converge.2
            (fun _ ho => (List.not_mem_nil ho).elim)
        · exact hs.set ((hs.node i).of_same hmember hledger) (le_of_eq hledger)
            (fun _ ho => (List.not_mem_nil ho).elim)
      · rw [if_neg he] at h
        simp only [reduceCtorEq] at h

end LeaseNet

/-- On each node the two copies of the duration are equal, they are the initial
    duration of some node, so no less than the least one, and no step raises
    them. -/
theorem lease_consensus {ι : Type} [DecidableEq ι] (P : Primitives) (nodes : ι → WhisperNode)
    (durations : ι → ℚ) (es : List (LeaseEvent ι)) :
    Machine.Throughout (LeaseNet.step P)
      (fun s => ∀ i, (s.nodes i).ledger.leaseDuration = (s.nodes i).membership.ourLeaseDuration ∧
        (∃ j, (s.nodes i).ledger.leaseDuration = durations j) ∧
        ∀ m ∈ lowerBounds (Set.range durations), m ≤ (s.nodes i).ledger.leaseDuration)
      (LeaseNet.start nodes durations) es ∧
    Machine.Along (LeaseNet.step P)
      (fun s e => ∀ s', s.step P e = some s' → ∀ i,
        (s'.nodes i).ledger.leaseDuration ≤ (s.nodes i).ledger.leaseDuration)
      (LeaseNet.start nodes durations) es := by
  have hstart := LeaseNet.sound_start nodes durations
  have hany : Machine.Along (LeaseNet.step P) (fun _ _ => True)
      (LeaseNet.start nodes durations) es :=
    Machine.along_of_forall _ _ _ _ (fun _ _ _ => trivial)
  constructor
  · refine Machine.Throughout.mono (fun s hs i => ?_) (Machine.throughout_of_along _
      (LeaseNet.Sound durations) _
      (fun s e s' hs _ h => (LeaseNet.step_sound hs h).1) _ _ hstart hany)
    rcases (hs.node i).initial with ⟨j, hj⟩
    rw [(hs.node i).equal, hj]
    exact ⟨rfl, ⟨j, rfl⟩, fun m hm => hm ⟨j, rfl⟩⟩
  · exact Machine.along_of_invariant _ (LeaseNet.Sound durations) _ _
      (fun s e s' hs _ h => (LeaseNet.step_sound hs h).1)
      (fun s e s' hs _ _ t ht => (LeaseNet.step_sound hs ht).2) _ _ hstart hany

end WhisperNet
