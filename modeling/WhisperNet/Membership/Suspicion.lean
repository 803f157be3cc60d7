import WhisperNet.Cluster.Mesh

/-!
# The Reports Behind a Death

A node confirms a peer dead once two reporters have suspected it. A report is
compared with the time the peer was last heard from when it arrives, and not
again when it is counted. The reports against a peer are dropped when the peer
is revived, that is, heard from while it is suspected or dead. A peer that is
heard from while it is alive keeps them, although they are refuted, and so does
a peer that is discovered after it was reported.

`Watch.Prompt` is the condition on a step that it leaves no such report, and
`fresh_reports` says that then every report counted against a peer is at least
as recent as the last sign of life from it.

## Main definitions

* `reportsOn`: The reporters counted against a peer.
* `seenAt`: When a peer was last heard from.
* `Issued`: A received suspicion of a peer that its last sign of life does not
  refute.
* `newsFrame`: What signs of life may do to reports.
* `Watch`: A membership layer with every message it has received.
* `Watch.Prompt`: The step keeps no report that a sign of life refutes.
* `Watch.TwoFresh`: Whoever dies in the step dies of fresh reports.

## Theorems

* `onSuspicion_state`: What a suspicion can leave.
* `beat_news`, `onNodeJoin_news`, `onHeartbeat_news`: Everything else makes no
  report.
* `revived_heartbeat`, `revived_join`: A revived peer has no reports.
* `step_fresh`: A prompt step keeps every report fresh.
* `step_reports`: A peer dies of two reports.
* `fresh_reports`: Over a prompt run, of two fresh ones.
* `Refuted.stale_report`: A death with a refuted report.
-/

namespace WhisperNet

open MembershipLayer WhisperNet.Action
open PyVal (get getD)

/-- The reporters counted against a peer. -/
def reportsOn (s : MembershipLayer) (k : Key) : Finset Key := (s.suspicions.get? k).getD ∅

/-- When a peer in the table was last heard from. -/
def seenAt (s : MembershipLayer) (k : Key) : Option ℚ := (s.peers.get? k).map PeerInfo.lastSeen

/-- Among the received messages is a suspicion of `k` by `r` with a timestamp
    not earlier than `seen`. -/
def Issued (received : List (PyVal × Msg)) (r k : Key) (seen : ℚ) : Prop :=
  ∃ m ∈ received, get m.2 (lit "type") = .str (lit "suspicion") ∧
    hashKey (get m.2 (lit "suspect")) = .ok k ∧ hashKey (getD m.2 (lit "from") m.1) = .ok r ∧
    ∃ ts, (getD m.2 (lit "timestamp") (.int 0)).asNum = some ts ∧ seen ≤ ts

/-- Every report against a peer in the table is fresh. -/
def Fresh (received : List (PyVal × Msg)) (s : MembershipLayer) : Prop :=
  ∀ k seen, seenAt s k = some seen → ∀ r ∈ reportsOn s k, Issued received r k seen

/-! ## Suspicions -/

/-- What a suspicion can leave: the report is opened, then added, then the peer
    marked dead, as far as the handler gets. -/
theorem onSuspicion_state (env : MemberEnv) (fromPeer : PyVal) (msg : Msg) (s : MembershipLayer) :
    (onSuspicion env fromPeer msg s).state = s ∨
      ∃ k, hashKey (get msg (lit "suspect")) = .ok k ∧ s.stale k msg = .ok false ∧
        ((onSuspicion env fromPeer msg s).state = openReports k s ∨
          ∃ r, hashKey (getD msg (lit "from") fromPeer) = .ok r ∧
            ((onSuspicion env fromPeer msg s).state = addReport k r (openReports k s) ∨
              (onSuspicion env fromPeer msg s).state =
                setStatus .dead k (addReport k r (openReports k s)))) := by
  have hforward : ∀ t, (forward env msg t).state = t := fun t => (forward_still env msg t).1.symm
  unfold onSuspicion
  rw [read_bind]
  by_cases hself : ((get msg (lit "suspect")).truthy
      && !pyEq (get msg (lit "suspect")) (.str s.ourKey)) = true
  · rw [if_pos hself]
    cases hk : hashKey (get msg (lit "suspect")) with
    | error e => exact Or.inl rfl
    | ok k =>
        rw [attempt_ok_bind]
        cases hstale : s.stale k msg with
        | error e => exact Or.inl rfl
        | ok st =>
            rw [attempt_ok_bind]
            cases st with
            | true => exact Or.inl rfl
            | false =>
                right
                refine ⟨k, rfl, hstale, ?_⟩
                rw [if_neg Bool.false_ne_true, modify_bind]
                cases hr : hashKey (getD msg (lit "from") fromPeer) with
                | error e => exact Or.inl rfl
                | ok r =>
                    right
                    refine ⟨r, rfl, ?_⟩
                    rw [attempt_ok_bind, modify_bind, read_bind]
                    by_cases hcond : (addReport k r (openReports k s)).condemned k = true
                    · right
                      rw [if_pos hcond, modify_bind]
                      -- The log line may raise; the status is assigned before it.
                      cases k with
                      | str x => exact hforward _
                      | none => rfl
                      | num q => rfl
                    · left
                      rw [if_neg hcond]
                      exact hforward _
  · rw [if_neg hself]
    exact Or.inl rfl

theorem seenAt_setStatus (st : PeerStatus) (k k' : Key) (s : MembershipLayer) :
    seenAt (setStatus st k s) k' = seenAt s k' := by
  unfold setStatus updatePeer seenAt
  cases hk : s.peers.get? k with
  | none => rfl
  | some p =>
      by_cases hkk : k' = k
      · rw [hkk, hk]
        simp only [Dict.get?_set_self, Option.map_some]
      · simp only [Dict.get?_set_of_ne _ _ _ _ hkk]

theorem reportsOn_openReports (k k' : Key) (s : MembershipLayer) :
    reportsOn (openReports k s) k' = reportsOn s k' := by
  unfold reportsOn openReports
  simp only [Dict.get?_set]
  by_cases hkk : k' = k
  · rw [if_pos hkk, hkk]
    rfl
  · rw [if_neg hkk]

theorem reportsOn_addReport (k r k' : Key) (s : MembershipLayer) :
    reportsOn (addReport k r s) k' =
      if k' = k then insert r (reportsOn s k') else reportsOn s k' := by
  unfold reportsOn addReport
  simp only [Dict.get?_set]
  by_cases hkk : k' = k
  · rw [if_pos hkk, if_pos hkk, hkk]
    rfl
  · rw [if_neg hkk, if_neg hkk]

theorem reportsOn_setStatus (st : PeerStatus) (k k' : Key) (s : MembershipLayer) :
    reportsOn (setStatus st k s) k' = reportsOn s k' := by
  unfold setStatus updatePeer
  cases s.peers.get? k with
  | none => rfl
  | some p => rfl

/-- A report that is not stale has a timestamp, no earlier than the last sign of
    life. -/
theorem timestamp_of_stale {s : MembershipLayer} {k : Key} {msg : Msg} {seen : ℚ}
    (hseen : seenAt s k = some seen) (h : s.stale k msg = .ok false) :
    ∃ ts, (getD msg (lit "timestamp") (.int 0)).asNum = some ts ∧ seen ≤ ts := by
  unfold seenAt at hseen
  rcases Option.map_eq_some_iff.mp hseen with ⟨p, hp, hlast⟩
  unfold stale at h
  rw [hp] at h
  simp only [PyVal.gt] at h
  rw [hlast] at h
  obtain ⟨v, hv⟩ : ∃ v, getD msg (lit "timestamp") (.int 0) = v := ⟨_, rfl⟩
  rw [hv] at h ⊢
  cases v with
  | none => cases h
  | bool b =>
      simp only [PyVal.lt, PyVal.asNum, Except.ok.injEq, decide_eq_false_iff_not, not_lt] at h
      exact ⟨_, rfl, h⟩
  | int n =>
      simp only [PyVal.lt, PyVal.asNum, Except.ok.injEq, decide_eq_false_iff_not, not_lt] at h
      exact ⟨_, rfl, h⟩
  | float q =>
      simp only [PyVal.lt, PyVal.asNum, Except.ok.injEq, decide_eq_false_iff_not, not_lt] at h
      exact ⟨_, rfl, h⟩
  | str x => cases h
  | list xs => cases h
  | dict kvs => cases h

/-- A suspicion moves no sign of life, and adds at most its own report, which is
    fresh. -/
theorem onSuspicion_fresh (env : MemberEnv) (fromPeer : PyVal) (msg : Msg) {s : MembershipLayer}
    {received : List (PyVal × Msg)} (htype : get msg (lit "type") = .str (lit "suspicion"))
    (h : Fresh received s) :
    Fresh (received ++ [(fromPeer, msg)]) (onSuspicion env fromPeer msg s).state := by
  have hold : Fresh (received ++ [(fromPeer, msg)]) s := by
    intro k seen hseen r hr
    rcases h k seen hseen r hr with ⟨m, hm, hrest⟩
    exact ⟨m, List.mem_append_left _ hm, hrest⟩
  -- The handler may open the reports, add one, and condemn.
  rcases onSuspicion_state env fromPeer msg s with hs | ⟨k₀, hk₀, hstale, hs⟩
  · rw [hs]
    exact hold
  · rcases hs with hs | ⟨r₀, hr₀, hs⟩
    · rw [hs]
      intro k seen hseen r hr
      rw [reportsOn_openReports] at hr
      exact hold k seen hseen r hr
    · have hreport : Fresh (received ++ [(fromPeer, msg)])
          (addReport k₀ r₀ (openReports k₀ s)) := by
        intro k seen hseen r hr
        rw [reportsOn_addReport, reportsOn_openReports] at hr
        by_cases hk : k = k₀
        · rw [if_pos hk, Finset.mem_insert] at hr
          rcases hr with hr | hr
          · -- The new report was compared with the last sign of life.
            rw [hk] at hseen ⊢
            rw [hr]
            exact ⟨(fromPeer, msg), List.mem_append_right _ (List.mem_singleton_self _), htype, hk₀,
              hr₀, timestamp_of_stale hseen hstale⟩
          · exact hold k seen hseen r hr
        · rw [if_neg hk] at hr
          exact hold k seen hseen r hr
      rcases hs with hs | hs
      · rw [hs]
        exact hreport
      · rw [hs]
        intro k seen hseen r hr
        rw [seenAt_setStatus] at hseen
        rw [reportsOn_setStatus] at hr
        exact hreport k seen hseen r hr

/-! ## Signs of life -/

/-- What a computation at a time may do to reports and signs of life: reports
    are dropped but not made, and the last sign of life of a peer becomes `now`
    at a key of `X`, or where a key of `N` enters the table. -/
def newsFrame (now : ℚ) (N X : Key → Prop) : Frame MembershipLayer Send where
  rel := fun s t => (∀ k, reportsOn t k ⊆ reportsOn s k) ∧
    ∀ k, seenAt t k = seenAt s k ∨ seenAt t k = some now ∧ (X k ∨ N k ∧ seenAt s k = none)
  out := fun _ _ => True
  refl := fun _ => ⟨fun _ => Finset.Subset.refl _, fun _ => Or.inl rfl⟩
  trans := fun s t u hst htu => by
    refine ⟨fun k => (htu.1 k).trans (hst.1 k), fun k => ?_⟩
    rcases htu.2 k with hsame | ⟨hnow, hwhy⟩
    · rw [hsame]
      exact hst.2 k
    · rcases hwhy with hX | ⟨hN, hnone⟩
      · exact Or.inr ⟨hnow, Or.inl hX⟩
      · rcases hst.2 k with hsame | ⟨hnow', _⟩
        · exact Or.inr ⟨hnow, Or.inr ⟨hN, hsame ▸ hnone⟩⟩
        · rw [hnone] at hnow'
          simp only [reduceCtorEq] at hnow'
  pull := fun _ _ _ _ _ => trivial

section Frames

variable {now : ℚ} {N X : Key → Prop}

theorem reportsOn_updatePeer (k k' : Key) (f : PeerInfo → PeerInfo) (s : MembershipLayer) :
    reportsOn (updatePeer k f s) k' = reportsOn s k' := by
  unfold updatePeer
  cases s.peers.get? k with
  | none => rfl
  | some p => rfl

theorem seenAt_updatePeer (k k' : Key) (f : PeerInfo → PeerInfo) (s : MembershipLayer) :
    seenAt (updatePeer k f s) k' =
      if k' = k then (s.peers.get? k).map (fun p => (f p).lastSeen) else seenAt s k' := by
  unfold updatePeer seenAt
  cases hk : s.peers.get? k with
  | none =>
      by_cases hkk : k' = k
      · rw [if_pos hkk, hkk, hk]
        rfl
      · rw [if_neg hkk]
  | some p =>
      rw [Dict.get?_set]
      by_cases hkk : k' = k
      · rw [if_pos hkk, if_pos hkk]
        rfl
      · rw [if_neg hkk, if_neg hkk]

/-- A field of a peer that is not its last sign of life. -/
theorem updatePeer_news (k : Key) (f : PeerInfo → PeerInfo)
    (h : ∀ p, (f p).lastSeen = p.lastSeen) :
    Within (newsFrame now N X) (modify (updatePeer k f) : Act Unit) := by
  refine fun s => withinAt_modify ⟨fun k' => ?_, fun k' => Or.inl ?_⟩
  · rw [reportsOn_updatePeer]
  · rw [seenAt_updatePeer]
    by_cases hkk : k' = k
    · rw [if_pos hkk, hkk]
      simp only [h]
      rfl
    · rw [if_neg hkk]

theorem setStatus_news (st : PeerStatus) (k : Key) :
    Within (newsFrame now N X) (modify (setStatus st k) : Act Unit) :=
  updatePeer_news k _ (fun _ => rfl)

theorem touch_news (k : Key) (hX : X k) :
    Within (newsFrame now N X) (modify (touch now k) : Act Unit) := by
  unfold touch
  refine fun s => withinAt_modify ⟨fun k' => ?_, fun k' => ?_⟩
  · rw [reportsOn_updatePeer]
  · rw [seenAt_updatePeer]
    by_cases hkk : k' = k
    · rw [if_pos hkk, hkk]
      unfold seenAt
      cases hk : s.peers.get? k with
      | none => exact Or.inl rfl
      | some p => exact Or.inr ⟨rfl, Or.inl hX⟩
    · rw [if_neg hkk]
      exact Or.inl rfl

theorem logKey_news (k : Key) : Within (newsFrame now N X) (logKey k) := by
  cases k with
  | str x => exact within_pure ()
  | none => exact within_raise _
  | num q => exact within_raise _

theorem discover_news (k : Key) (h : X k ∨ N k) :
    Within (newsFrame now N X) (discover now k) := by
  intro s
  refine withinAt_read_bind ?_
  cases hpeer : s.peers.get? k with
  | some p => exact within_pure () s
  | none =>
      refine withinAt_bind (withinAt_modify ⟨fun k' => Finset.Subset.refl _, fun k' => ?_⟩)
        (fun _ _ => logKey_news k _)
      unfold seenAt insertPeer
      rw [Dict.get?_set]
      by_cases hkk : k' = k
      · rw [if_pos hkk, hkk]
        refine Or.inr ⟨rfl, ?_⟩
        rcases h with hX | hN
        · exact Or.inl hX
        · rw [hpeer]
          exact Or.inr ⟨hN, rfl⟩
      · rw [if_neg hkk]
        exact Or.inl rfl

theorem reportsOn_popSuspicions (k k' : Key) (s : MembershipLayer) :
    reportsOn (popSuspicions k s) k' = if k' = k then ∅ else reportsOn s k' := by
  unfold reportsOn popSuspicions
  by_cases hkk : k' = k
  · rw [if_pos hkk, hkk]
    simp only [Dict.get?_erase_self, Option.getD_none]
  · rw [if_neg hkk]
    simp only [Dict.get?_erase_of_ne _ _ _ hkk]

theorem revive_news (k : Key) : Within (newsFrame now N X) (revive k) := by
  intro s
  refine withinAt_read_bind ?_
  cases hk : s.peers.get? k with
  | none => exact within_pure () s
  | some p =>
      by_cases hst : p.status ≠ .alive
      · simp only [if_pos hst]
        refine withinAt_bind (withinAt_modify ⟨fun k' => ?_, fun k' => Or.inl ?_⟩)
          (fun _ _ => logKey_news k _)
        · rw [reportsOn_popSuspicions, reportsOn_setStatus]
          split
          · exact Finset.empty_subset _
          · exact Finset.Subset.refl _
        · exact seenAt_setStatus .alive k k' s
      · simp only [if_neg hst]
        exact within_pure () s

theorem adopt_news {α : Type} (k : Key) (v : PyVal) (given : Bool)
    (convert : PyVal → Except PyErr α) (store : α → PeerInfo → PeerInfo)
    (hstore : ∀ a p, (store a p).lastSeen = p.lastSeen) :
    Within (newsFrame now N X) (adopt k v given convert store) := by
  unfold adopt
  cases given with
  | false => exact within_pure ()
  | true =>
      rw [if_pos rfl]
      exact within_bind (within_attempt _) (fun a => updatePeer_news k (store a) (hstore a))

theorem forward_news (env : MemberEnv) (msg : Msg) :
    Within (newsFrame now N X) (forward env msg) :=
  fun s => withinAt_of_still (forward_still env msg s) (fun _ _ => trivial)

theorem absorb_news (p : PyVal) (h : ∀ k, hashKey p = .ok k → N k) :
    Within (newsFrame now N X) (absorb now p) := by
  refine within_bind_attempt (fun k hk s => withinAt_read_bind ?_)
  split
  · exact discover_news k (Or.inr (h k hk)) s
  · exact within_pure () s

theorem suspectSilent_news (clock limit : ℚ) (ks : List Key) :
    Within (newsFrame now N X) (suspectSilent clock limit ks) := by
  induction ks with
  | nil => exact within_pure []
  | cons k ks ih =>
      intro s
      refine withinAt_read_bind ?_
      by_cases hk : s.silent clock limit k = true
      · rw [if_pos hk]
        refine within_bind (setStatus_news .suspected k) (fun _ => ?_) s
        refine within_bind (logKey_news k) (fun _ => ?_)
        exact within_bind ih (fun _ => within_pure _)
      · rw [if_neg hk]
        exact ih s

theorem gossipSuspicion_news (env : MemberEnv) (k : Key) :
    Within (newsFrame now N X) (gossipSuspicion env k) := fun s =>
  withinAt_read_bind (withinAt_of_still (fanout_still env _ s) (fun _ _ => trivial))

theorem send_news (k : Key) (msg : Msg) : Within (newsFrame now N X) (send k msg) := by
  cases k with
  | num q => exact within_raise _
  | none => exact fun s => withinAt_emit trivial
  | str x => exact fun s => withinAt_emit trivial

theorem sendJoinTo_news (env : MemberEnv) (hops : Int) (k : Key) :
    Within (newsFrame now N X) (sendJoinTo env hops k) := fun s =>
  withinAt_read_bind (send_news k _ s)

end Frames

/-- When a node's own operation reads the clock. -/
def Beat.now : Beat → ℚ
  | .seed now _ => now
  | .join env | .heartbeat env | .detect env | .sync env _ => env.now

/-- The keys that a node's own operation may bring into the table. -/
def Beat.brings : Beat → Key → Prop
  | .seed _ peerKey => fun k => k = .str peerKey
  | .sync _ connectedKeys => fun k => ∃ c ∈ connectedKeys, k = .str c
  | _ => fun _ => False

/-- The peer that a heartbeat or a join is a sign of life of. -/
def From (s : MembershipLayer) (msg : Msg) (k : Key) : Prop :=
  ((get msg (lit "from")).truthy && !pyEq (get msg (lit "from")) (.str s.ourKey)) = true ∧
    hashKey (get msg (lit "from")) = .ok k

/-- Every field that a heartbeat reads before it revives its sender converts. -/
structure Converts (msg : Msg) : Prop where
  shardId : get msg (lit "shard_id") ≠ .none → ∃ n, pyInt (get msg (lit "shard_id")) = .ok n
  leaseDuration : (get msg (lit "lease_duration")).truthy = true →
    ∃ d, pyFloat (get msg (lit "lease_duration")) = .ok d
  capabilities : get msg (lit "capabilities") ≠ .none →
    ∃ cs, pyList (get msg (lit "capabilities")) = .ok cs
  priceAxl : get msg (lit "price_axl") ≠ .none →
    ∃ q, pyFloat (get msg (lit "price_axl")) = .ok q

/-- The peers that a heartbeat lists, where the handler gets to the list. -/
def Listed (s : MembershipLayer) (msg : Msg) (k : Key) : Prop :=
  (∃ sender, From s msg sender) ∧ Converts msg ∧
    ∃ ps, pyList (getD msg (lit "known_peers") (.list [])) = .ok ps ∧ ∃ p ∈ ps, hashKey p = .ok k

theorem beat_news (b : Beat) :
    Within (newsFrame b.now b.brings (fun _ => False)) b.act := by
  cases b with
  | seed now peerKey =>
      have hbrings : (Beat.seed now peerKey).brings (.str peerKey) := rfl
      refine fun s => withinAt_read_bind ?_
      split
      · exact discover_news _ (Or.inr hbrings) s
      · exact within_pure () s
  | join env =>
      exact fun s => withinAt_read_bind (within_each _ (fun k _ => sendJoinTo_news env _ k) s)
  | heartbeat env =>
      exact fun s => withinAt_read_bind (within_each _ (fun k _ => send_news k _) s)
  | detect env =>
      refine fun s => withinAt_read_bind (within_bind (suspectSilent_news _ _ _) (fun ks => ?_) s)
      exact within_each ks (fun k _ => gossipSuspicion_news env k)
  | sync env connectedKeys =>
      refine fun s => withinAt_read_bind (withinAt_bind (withinAt_modify ?_) (fun _ _ => ?_))
      · exact ⟨fun _ => Finset.Subset.refl _, fun _ => Or.inl rfl⟩
      refine within_bind (within_each _ (fun k hk => ?_)) (fun _ => ?_) _
      · rcases List.mem_map.mp hk with ⟨c, hc, hck⟩
        have hmem : c ∈ connectedKeys := List.mem_dedup.mp (List.mem_filter.mp hc).1
        exact discover_news k (Or.inr ⟨c, hmem, hck.symm⟩)
      refine within_bind (suspectSilent_news _ _ _) (fun _ => ?_)
      refine within_bind (within_each _ (fun k _ => sendJoinTo_news env 1 k)) (fun _ => ?_)
      exact within_each _ (fun k _ => gossipSuspicion_news env k)

/-- A join moves the sign of life of its sender. -/
theorem onNodeJoin_news (env : MemberEnv) (msg : Msg) (s : MembershipLayer) :
    WithinAt (newsFrame env.now (fun _ => False) (From s msg)) (onNodeJoin env msg) s := by
  refine withinAt_read_bind ?_
  split
  · rename_i hactive
    refine within_bind_attempt (fun k hk => ?_) s
    have hfrom : From s msg k := ⟨hactive, hk⟩
    refine within_bind (discover_news k (Or.inl hfrom)) (fun _ => ?_)
    refine within_bind (touch_news k hfrom) (fun _ => ?_)
    refine within_bind (revive_news k) (fun _ => ?_)
    refine within_bind (adopt_news k _ _ _ _ (fun _ _ => rfl)) (fun _ => ?_)
    refine within_bind (adopt_news k _ _ _ _ (fun _ _ => rfl)) (fun _ => ?_)
    refine within_bind (adopt_news k _ _ _ _ (fun _ _ => rfl)) (fun _ => ?_)
    refine within_bind (adopt_news k _ _ _ _ (fun _ _ => rfl)) (fun _ => ?_)
    exact forward_news env msg
  · exact within_pure () s

theorem adopt_ok {α : Type} {k : Key} {v : PyVal} {given : Bool}
    {convert : PyVal → Except PyErr α} {store : α → PeerInfo → PeerInfo} {s : MembershipLayer}
    {u : Unit} (h : (adopt k v given convert store s).ret = .ok u) (hgiven : given = true) :
    ∃ a, convert v = .ok a := by
  unfold adopt at h
  rw [if_pos hgiven] at h
  cases hc : convert v with
  | ok a => exact ⟨a, rfl⟩
  | error e =>
      rw [hc, attempt_error_bind] at h
      simp only [reduceCtorEq] at h

/-- A heartbeat moves the sign of life of its sender, and may bring in the peers
    it lists. -/
theorem onHeartbeat_news (env : MemberEnv) (msg : Msg) (s : MembershipLayer) :
    WithinAt (newsFrame env.now (Listed s msg) (From s msg)) (onHeartbeat env msg) s := by
  refine withinAt_read_bind ?_
  split
  · rename_i hactive
    refine within_bind_attempt (fun k hk => ?_) s
    have hfrom : From s msg k := ⟨hactive, hk⟩
    refine within_bind (discover_news k (Or.inl hfrom)) (fun _ => ?_)
    refine within_bind (touch_news k hfrom) (fun _ => ?_)
    refine within_bind (updatePeer_news k _ (fun _ => rfl)) (fun _ => ?_)
    -- The handler gets to the list only if every field converts.
    refine within_bind_ret (adopt_news k _ _ _ _ (fun _ _ => rfl)) (fun _ _ hshard => ?_)
    refine within_bind (adopt_news k _ _ _ _ (fun _ _ => rfl)) (fun _ => ?_)
    refine within_bind_ret (adopt_news k _ _ _ _ (fun _ _ => rfl)) (fun _ _ hlease => ?_)
    refine within_bind_ret (adopt_news k _ _ _ _ (fun _ _ => rfl)) (fun _ _ hcaps => ?_)
    refine within_bind_ret (adopt_news k _ _ _ _ (fun _ _ => rfl)) (fun _ _ hprice => ?_)
    have hconverts : Converts msg :=
      ⟨fun h => adopt_ok hshard (decide_eq_true h), adopt_ok hlease,
        fun h => adopt_ok hcaps (decide_eq_true h), fun h => adopt_ok hprice (decide_eq_true h)⟩
    refine within_bind (revive_news k) (fun _ => ?_)
    refine within_bind_attempt (fun known hknown => ?_)
    refine within_bind (within_each known (fun p hp => ?_)) (fun _ => forward_news env msg)
    exact absorb_news p (fun k' hk' => ⟨⟨k, hfrom⟩, hconverts, known, hknown, p, hp, hk'⟩)
  · exact within_pure () s

/-! ## Revivals -/

section Revivals

variable {k : Key} {st : PeerStatus}

/-- The computation returns and leaves a peer in its status. -/
def StaysAt (k : Key) (st : PeerStatus) (x : Act Unit) : Prop :=
  ∀ s, s.statusAt k = some st → (x s).ret = .ok () ∧ (x s).state.statusAt k = some st

/-- The computation drops the reports against a peer in this status, even if it
    raises. -/
def Clears (k : Key) (st : PeerStatus) (x : Act Unit) : Prop :=
  ∀ s, s.statusAt k = some st → reportsOn (x s).state k = ∅

theorem clears_bind_right {x : Act Unit} {f : Unit → Act Unit} (hx : StaysAt k st x)
    (hf : Clears k st (f ())) : Clears k st (x >>= f) := by
  intro s hs
  rcases hx s hs with ⟨hret, hstatus⟩
  rw [bind_ok hret f]
  exact hf _ hstatus

theorem clears_bind_left (now : ℚ) (N X : Key → Prop) {x : Act Unit} {f : Unit → Act Unit}
    (hx : Clears k st x) (hf : Within (newsFrame now N X) (f ())) : Clears k st (x >>= f) := by
  intro s hs
  cases hret : (x s).ret with
  | error e =>
      rw [bind_error hret f]
      exact hx s hs
  | ok u =>
      -- Nothing in the frame makes a report.
      rw [bind_ok hret f, ← Finset.subset_empty, ← hx s hs]
      exact (hf _).1.1 k

theorem discover_staysAt (now : ℚ) : StaysAt k st (discover now k) := by
  intro s hs
  rcases (statusAt_eq_some s k st).mp hs with ⟨p, hp, _⟩
  have hrun : discover now k s = ⟨.ok (), s, []⟩ := by
    unfold discover
    rw [read_bind, hp]
    rfl
  rw [hrun]
  exact ⟨rfl, hs⟩

theorem updatePeer_staysAt (f : PeerInfo → PeerInfo) (hf : ∀ p, (f p).status = p.status) :
    StaysAt k st (modify (updatePeer k f)) := by
  intro s hs
  refine ⟨rfl, ?_⟩
  change (updatePeer k f s).statusAt k = some st
  rw [statusAt_updatePeer, if_pos rfl]
  simp only [hf]
  exact hs

theorem adopt_staysAt {α : Type} {v : PyVal} {given : Bool}
    {convert : PyVal → Except PyErr α} (store : α → PeerInfo → PeerInfo)
    (hconvert : given = true → ∃ a, convert v = .ok a)
    (hstore : ∀ a p, (store a p).status = p.status) :
    StaysAt k st (adopt k v given convert store) := by
  unfold adopt
  cases given with
  | false => exact fun s hs => ⟨rfl, hs⟩
  | true =>
      rcases hconvert rfl with ⟨a, ha⟩
      rw [if_pos rfl, ha]
      exact updatePeer_staysAt (store a) (hstore a)

theorem revive_clears (hst : st ≠ .alive) : Clears k st (revive k) := by
  intro s hs
  rcases (statusAt_eq_some s k st).mp hs with ⟨p, hp, hpst⟩
  unfold revive
  rw [read_bind, hp]
  rw [← hpst] at hst
  simp only [if_pos hst]
  rw [modify_bind]
  have hquiet : (logKey k (popSuspicions k (setStatus .alive k s))).state =
      popSuspicions k (setStatus .alive k s) := by
    cases k with
    | str x => rfl
    | none => rfl
    | num q => rfl
  rw [hquiet, reportsOn_popSuspicions, if_pos rfl]

/-- A join from a suspected or dead peer drops the reports against it. -/
theorem revived_join (env : MemberEnv) (msg : Msg) {s : MembershipLayer} (hfrom : From s msg k)
    (hs : s.statusAt k = some st) (hst : st ≠ .alive) :
    reportsOn (onNodeJoin env msg s).state k = ∅ := by
  unfold onNodeJoin
  rw [read_bind, if_pos hfrom.1, hfrom.2, attempt_ok_bind]
  refine clears_bind_right (discover_staysAt env.now) ?_ s hs
  refine clears_bind_right (updatePeer_staysAt _ (fun _ => rfl)) ?_
  refine clears_bind_left env.now (fun _ => False) (fun _ => False) (revive_clears hst) ?_
  refine within_bind (adopt_news k _ _ _ _ (fun _ _ => rfl)) (fun _ => ?_)
  refine within_bind (adopt_news k _ _ _ _ (fun _ _ => rfl)) (fun _ => ?_)
  refine within_bind (adopt_news k _ _ _ _ (fun _ _ => rfl)) (fun _ => ?_)
  exact within_bind (adopt_news k _ _ _ _ (fun _ _ => rfl)) (fun _ => forward_news env msg)

/-- So does a heartbeat, if its fields convert. -/
theorem revived_heartbeat (env : MemberEnv) (msg : Msg) {s : MembershipLayer}
    (hfrom : From s msg k) (hmsg : Converts msg) (hs : s.statusAt k = some st)
    (hst : st ≠ .alive) : reportsOn (onHeartbeat env msg s).state k = ∅ := by
  unfold onHeartbeat
  rw [read_bind, if_pos hfrom.1, hfrom.2, attempt_ok_bind]
  refine clears_bind_right (discover_staysAt env.now) ?_ s hs
  refine clears_bind_right (updatePeer_staysAt _ (fun _ => rfl)) ?_
  refine clears_bind_right (updatePeer_staysAt _ (fun _ => rfl)) ?_
  refine clears_bind_right (adopt_staysAt _ (fun h => hmsg.shardId (of_decide_eq_true h))
    (fun _ _ => rfl)) ?_
  refine clears_bind_right (adopt_staysAt _ (fun _ => ⟨_, rfl⟩) (fun _ _ => rfl)) ?_
  refine clears_bind_right (adopt_staysAt _ hmsg.leaseDuration (fun _ _ => rfl)) ?_
  refine clears_bind_right (adopt_staysAt _ (fun h => hmsg.capabilities (of_decide_eq_true h))
    (fun _ _ => rfl)) ?_
  refine clears_bind_right (adopt_staysAt _ (fun h => hmsg.priceAxl (of_decide_eq_true h))
    (fun _ _ => rfl)) ?_
  refine clears_bind_left env.now (fun _ => True) (fun _ => False) (revive_clears hst) ?_
  refine within_bind_attempt (fun known _ => ?_)
  refine within_bind (within_each known (fun p _ => ?_)) (fun _ => forward_news env msg)
  exact absorb_news p (fun _ _ => trivial)

end Revivals

/-! ## Over a run -/

theorem issued_mono {received received' : List (PyVal × Msg)} (hsub : received ⊆ received')
    {r k : Key} {seen : ℚ} (h : Issued received r k seen) : Issued received' r k seen := by
  rcases h with ⟨m, hm, hrest⟩
  exact ⟨m, hsub hm, hrest⟩

/-- Reports that a sign of life does not refute stay fresh. -/
theorem fresh_of_news {received : List (PyVal × Msg)} {s t : MembershipLayer} {now : ℚ}
    {N X : Key → Prop} (h : Fresh received s) (hnews : (newsFrame now N X).rel s t)
    (hX : ∀ k, X k → ∀ r ∈ reportsOn t k, Issued received r k now)
    (hN : ∀ k, N k → seenAt s k = none → ∀ r ∈ reportsOn s k, Issued received r k now) :
    Fresh received t := by
  intro k seen hseen r hr
  have hold : r ∈ reportsOn s k := hnews.1 k hr
  rcases hnews.2 k with hsame | ⟨hnow, hwhy⟩
  · rw [hsame] at hseen
    exact h k seen hseen r hold
  · rw [hnow, Option.some.injEq] at hseen
    rw [← hseen]
    rcases hwhy with hk | ⟨hk, hnone⟩
    · exact hX k hk r hr
    · exact hN k hk hnone r hold

/-- A membership layer with every message it has received. -/
structure Watch where
  layer : MembershipLayer
  received : List (PyVal × Msg)

/-- An operation of the node, or a message with the key it came from. -/
inductive WatchEvent
  | beat (b : Beat)
  | receive (env : MemberEnv) (fromPeer : PyVal) (msg : Msg)

namespace Watch

def step (w : Watch) : WatchEvent → Option Watch
  | .beat b => some { w with layer := (b.act w.layer).state }
  | .receive env fromPeer msg => some
      { layer := (handleMessage env fromPeer msg w.layer).state
        received := w.received ++ [(fromPeer, msg)] }

/-- A sign of life of `k` at `now` refutes none of the reports against it. -/
def Settled (w : Watch) (k : Key) (now : ℚ) : Prop :=
  ∀ r ∈ reportsOn w.layer k, Issued w.received r k now

/-- A peer in the table that is suspected or dead. -/
def Lapsed (w : Watch) (k : Key) : Prop := ∃ st, w.layer.statusAt k = some st ∧ st ≠ .alive

/-- The step keeps no report that a sign of life refutes: whoever is heard from
    has none or is revived, and whoever is discovered has none. -/
def Prompt (w : Watch) : WatchEvent → Prop
  | .beat b => ∀ k, b.brings k → w.layer.knows k ∨ w.Settled k b.now
  | .receive env _ msg =>
    (w.layer.dispatches (lit "heartbeat") msg = true →
      (∀ k, From w.layer msg k → w.Settled k env.now ∨ Converts msg ∧ w.Lapsed k) ∧
        ∀ k, Listed w.layer msg k → w.layer.knows k ∨ w.Settled k env.now) ∧
    (w.layer.dispatches (lit "node_join") msg = true →
      ∀ k, From w.layer msg k → w.Settled k env.now ∨ w.Lapsed k)

/-- Whoever dies in the step dies of at least two reports, and every reporter
    counted has issued one that the last sign of life does not refute. -/
def TwoFresh (w : Watch) (e : WatchEvent) : Prop :=
  ∀ w', w.step e = some w' → ∀ k, ¬ w.layer.deadAt k → w'.layer.deadAt k →
    ∃ seen, seenAt w'.layer k = some seen ∧ 2 ≤ (reportsOn w'.layer k).card ∧
      ∀ r ∈ reportsOn w'.layer k, Issued w'.received r k seen

end Watch

theorem seenAt_eq_none (s : MembershipLayer) (k : Key) : seenAt s k = none ↔ ¬ s.knows k := by
  unfold seenAt MembershipLayer.knows statusAt
  rw [not_not, Option.map_eq_none_iff, Option.map_eq_none_iff]

/-- What a received message leaves, by the handler that took it. -/
theorem handleMessage_state (env : MemberEnv) (fromPeer : PyVal) (msg : Msg)
    (s : MembershipLayer) :
    (handleMessage env fromPeer msg s).state = s ∨
      ∃ t, t = markSeen (get msg (lit "msg_id")) s ∧
        ((handleMessage env fromPeer msg s).state = t ∨
          s.dispatches (lit "heartbeat") msg = true ∧
            (handleMessage env fromPeer msg s).state = (onHeartbeat env msg t).state ∨
          get msg (lit "type") = .str (lit "suspicion") ∧
            (handleMessage env fromPeer msg s).state = (onSuspicion env fromPeer msg t).state ∨
          s.dispatches (lit "node_join") msg = true ∧
            (handleMessage env fromPeer msg s).state = (onNodeJoin env msg t).state) := by
  unfold handleMessage dispatches
  rw [read_bind]
  -- A message without an id, or with one that was seen, is dropped.
  by_cases hnew : ((get msg (lit "msg_id")).truthy
      && !pyIn (get msg (lit "msg_id")) s.seenIds.items) = true
  · right
    refine ⟨_, rfl, ?_⟩
    rw [if_pos hnew, modify_bind, hnew]
    simp only [Bool.true_and]
    by_cases hheart : pyEq (get msg (lit "type")) (.str (lit "heartbeat")) = true
    · rw [if_pos hheart]
      exact Or.inr (Or.inl ⟨hheart, rfl⟩)
    · rw [if_neg hheart]
      by_cases hsusp : pyEq (get msg (lit "type")) (.str (lit "suspicion")) = true
      · rw [if_pos hsusp]
        exact Or.inr (Or.inr (Or.inl ⟨(pyEq_str _ _).mp hsusp, rfl⟩))
      · rw [if_neg hsusp]
        by_cases hjoin : pyEq (get msg (lit "type")) (.str (lit "node_join")) = true
        · rw [if_pos hjoin]
          exact Or.inr (Or.inr (Or.inr ⟨hjoin, rfl⟩))
        · rw [if_neg hjoin]
          exact Or.inl rfl
  · left
    rw [if_neg hnew]
    rfl

/-- A prompt step keeps every report fresh. -/
theorem step_fresh {w w' : Watch} {e : WatchEvent} (h : Fresh w.received w.layer)
    (hprompt : w.Prompt e) (hstep : w.step e = some w') : Fresh w'.received w'.layer := by
  cases e with
  | beat b =>
      have hw' := (Option.some.inj hstep).symm
      rw [hw']
      refine fresh_of_news h (beat_news b w.layer).1 (fun k hk => hk.elim) (fun k hk hnone => ?_)
      exact (hprompt k hk).resolve_left ((seenAt_eq_none _ _).mp hnone)
  | receive env fromPeer msg =>
      have hw' := (Option.some.inj hstep).symm
      have hsub : w.received ⊆ w.received ++ [(fromPeer, msg)] := List.subset_append_left _ _
      have hmono : ∀ t, Fresh w.received t → Fresh (w.received ++ [(fromPeer, msg)]) t :=
        fun t ht k seen hseen r hr => issued_mono hsub (ht k seen hseen r hr)
      rw [hw']
      rcases handleMessage_state env fromPeer msg w.layer with hs | ⟨t, ht, hs⟩
      · simp only [hs]
        exact hmono _ h
      -- Noting the id touches neither reports nor signs of life.
      have hseen : ∀ k, seenAt t k = seenAt w.layer k := fun k => by rw [ht]; rfl
      have hreports : ∀ k, reportsOn t k = reportsOn w.layer k := fun k => by rw [ht]; rfl
      have hstatus : ∀ k, t.statusAt k = w.layer.statusAt k := fun k => by rw [ht]; rfl
      have hfrom : ∀ k, From t msg k ↔ From w.layer msg k := fun k => by rw [ht]; rfl
      have hfresh : Fresh w.received t := by
        intro k seen hk r hr
        rw [hseen] at hk
        rw [hreports] at hr
        exact h k seen hk r hr
      rcases hs with hs | ⟨hd, hs⟩ | ⟨htype, hs⟩ | ⟨hd, hs⟩
      · simp only [hs]
        exact hmono t hfresh
      · simp only [hs]
        refine hmono _ (fresh_of_news hfresh (onHeartbeat_news env msg t).1 ?_ ?_)
        · intro k hk r hr
          rcases (hprompt.1 hd).1 k ((hfrom k).mp hk) with hsettled | ⟨hmsg, st, hst, hne⟩
          · have hold := (onHeartbeat_news env msg t).1.1 k hr
            rw [hreports] at hold
            exact hsettled r hold
          · rw [revived_heartbeat env msg hk hmsg ((hstatus k).trans hst) hne] at hr
            exact absurd hr (Finset.notMem_empty r)
        · intro k hk hnone r hr
          have hlisted : Listed w.layer msg k := by
            rcases hk with ⟨⟨sender, hsender⟩, hrest⟩
            exact ⟨⟨sender, (hfrom sender).mp hsender⟩, hrest⟩
          rw [hseen] at hnone
          rw [hreports] at hr
          exact ((hprompt.1 hd).2 k hlisted).resolve_left ((seenAt_eq_none _ _).mp hnone) r hr
      · simp only [hs]
        exact onSuspicion_fresh env fromPeer msg htype hfresh
      · simp only [hs]
        refine hmono _ (fresh_of_news hfresh (onNodeJoin_news env msg t).1 ?_ (fun _ hk => hk.elim))
        intro k hk r hr
        rcases hprompt.2 hd k ((hfrom k).mp hk) with hsettled | ⟨st, hst, hne⟩
        · have hold := (onNodeJoin_news env msg t).1.1 k hr
          rw [hreports] at hold
          exact hsettled r hold
        · rw [revived_join env msg hk ((hstatus k).trans hst) hne] at hr
          exact absurd hr (Finset.notMem_empty r)

/-- A suspicion that condemns a peer leaves enough reports against it. -/
theorem onSuspicion_reports (env : MemberEnv) {fromPeer : PyVal} {msg : Msg}
    {s : MembershipLayer} {k : Key} (h : s.condemns fromPeer msg = some k) :
    2 ≤ (reportsOn (onSuspicion env fromPeer msg s).state k).card := by
  rcases condemns_some h with ⟨hk, _, r, hr, hcond⟩
  rcases (condemned_iff _ k).mp hcond with ⟨⟨p, hp, halive⟩, hcard⟩
  have hbefore : s.statusAt k ≠ some .dead := by
    rw [statusAt, show s.peers.get? k = some p from hp]
    exact fun hc => halive (Option.some.inj hc)
  have hafter : (onSuspicion env fromPeer msg s).state.statusAt k = some .dead := by
    rw [onSuspicion_statusAt, h]
    simp only [statusMoved, if_true, statusAt, show s.peers.get? k = some p from hp,
      Option.map_some]
  rcases onSuspicion_state env fromPeer msg s with hs | ⟨k', hk', _, hs⟩
  · rw [hs] at hafter
    exact absurd hafter hbefore
  · have hkk : k' = k := Except.ok.inj (hk'.symm.trans hk)
    rw [hkk] at hs
    rcases hs with hs | ⟨r', hr', hs | hs⟩
    · rw [hs] at hafter
      exact absurd hafter hbefore
    · rw [hs] at hafter
      exact absurd hafter hbefore
    · have hrr : r' = r := Except.ok.inj (hr'.symm.trans hr)
      rw [hs, reportsOn_setStatus, hrr]
      exact hcard

/-- Whoever a step marks dead has enough reports against it afterwards. -/
theorem step_reports {w w' : Watch} {e : WatchEvent} {k : Key} (hstep : w.step e = some w')
    (hbefore : ¬ w.layer.deadAt k) (hafter : w'.layer.deadAt k) :
    2 ≤ (reportsOn w'.layer k).card := by
  cases e with
  | beat b =>
      -- No operation of the node itself marks anyone dead.
      rw [← Option.some.inj hstep] at hafter
      rcases Mesh.beat_within_any w.layer.ourKey b with ⟨A, hx, hA, _⟩
      exact absurd (not_dead_of_changes hA ((hx w.layer).1 rfl) k hafter) hbefore
  | receive env fromPeer msg =>
      rw [← Option.some.inj hstep] at hafter ⊢
      cases hc : w.layer.confirms fromPeer msg with
      | none => exact absurd (handleMessage_not_dead env fromPeer msg w.layer hc k hafter) hbefore
      | some k₀ =>
          have hkk : k = k₀ := by
            by_contra hne
            have hmoved := handleMessage_confirms env fromPeer msg w.layer k₀ k hc
            rw [statusMoved, if_neg hne] at hmoved
            exact hbefore (hmoved.symm.trans hafter)
          rw [hkk]
          unfold confirms at hc
          by_cases hd : w.layer.dispatches (lit "suspicion") msg = true
          · rw [if_pos hd] at hc
            have hrun : (handleMessage env fromPeer msg w.layer).state =
                (onSuspicion env fromPeer msg
                  (markSeen (get msg (lit "msg_id")) w.layer)).state := by
              unfold dispatches at hd
              rw [Bool.and_eq_true] at hd
              have hheart : ¬ pyEq (get msg (lit "type")) (.str (lit "heartbeat")) = true := by
                rw [pyEq_str, (pyEq_str _ _).mp hd.2]
                decide
              unfold handleMessage
              rw [read_bind, if_pos hd.1, modify_bind, if_neg hheart, if_pos hd.2]
            rw [← condemns_seen w.layer (get msg (lit "msg_id"))] at hc
            simp only [hrun]
            exact onSuspicion_reports env hc
          · rw [if_neg hd] at hc
            simp only [reduceCtorEq] at hc

/-- In a run whose steps are all prompt, whoever is marked dead has at least two
    reports against it, and every one of them is fresh. -/
theorem fresh_reports (s : MembershipLayer) (es : List WatchEvent)
    (h : Machine.Along Watch.step Watch.Prompt ⟨s.fresh, []⟩ es) :
    Machine.Along Watch.step Watch.TwoFresh ⟨s.fresh, []⟩ es := by
  refine Machine.along_of_invariant Watch.step (fun w => Fresh w.received w.layer) Watch.Prompt
    Watch.TwoFresh (fun _ _ _ => step_fresh) ?_ _ es (fun k seen hseen => nomatch hseen) h
  intro w e w' hw hprompt hstep w'' hstep' k hbefore hafter
  have hfresh := step_fresh hw hprompt hstep'
  obtain ⟨seen, hseen⟩ : ∃ seen, seenAt w''.layer k = some seen := by
    rcases (statusAt_eq_some _ _ _).mp hafter with ⟨p, hp, _⟩
    exact ⟨p.lastSeen, by rw [seenAt, hp]; rfl⟩
  exact ⟨seen, hseen, step_reports hstep' hbefore hafter, hfresh k seen hseen⟩

/-! ## A refuted report -/

namespace Refuted

def env (now : ℚ) : MemberEnv where
  now := now
  uuid := fun _ => lit "id"
  tasksHeld := []
  shuffle := fun _ ks => ks
  shuffle_perm := fun _ _ => List.Perm.refl _

/-- A heartbeat of the peer `p`. -/
def heartbeat (msgId : String) (now : ℚ) : WatchEvent :=
  .receive (env now) (.str (lit "p"))
    [(lit "type", .str (lit "heartbeat")),
     (lit "msg_id", .str (lit msgId)),
     (lit "from", .str (lit "p")),
     (lit "timestamp", .float now),
     (lit "shard_id", .int 1),
     (lit "tasks_held", .list []),
     (lit "known_peers", .list []),
     (lit "hops", .int 8),
     (lit "lease_duration", .float 30),
     (lit "capabilities", .list []),
     (lit "price_axl", .float (1 / 100))]

/-- A suspicion of `p`. -/
def report (msgId reporter : String) (now : ℚ) : WatchEvent :=
  .receive (env now) (.str (lit reporter))
    [(lit "type", .str (lit "suspicion")),
     (lit "msg_id", .str (lit msgId)),
     (lit "from", .str (lit reporter)),
     (lit "suspect", .str (lit "p")),
     (lit "timestamp", .float now),
     (lit "hops", .int 8)]

def layer : MembershipLayer := { ourKey := lit "n" }

/-- `p` is reported once, heard from, and reported once more. -/
def history : List WatchEvent :=
  [heartbeat "1" 0, report "2" "a" 11, heartbeat "3" 12, report "4" "b" 13]

/-- The report that the second heartbeat refutes still counts. -/
theorem stale_report : ¬ Machine.Along Watch.step Watch.TwoFresh ⟨layer.fresh, []⟩ history := by
  intro h
  have hlast := ((((h _ rfl).2 _ rfl).2 _ rfl).2 _ rfl).1
  rcases hlast _ rfl (.str (lit "p")) (by decide +kernel) (by decide +kernel) with
    ⟨seen, hseen, _, hissued⟩
  have hnow : some 12 = some seen := by
    rw [← hseen]
    decide +kernel
  rcases hissued (.str (lit "a")) (by decide +kernel) with ⟨m, hm, htype, _, hfrom, ts, hts, hle⟩
  rw [← Option.some.inj hnow] at hle
  simp only [List.nil_append, List.cons_append, List.mem_cons, List.not_mem_nil, or_false] at hm
  rcases hm with hm | hm | hm | hm
  · rw [hm] at htype
    exact absurd htype (by decide +kernel)
  · -- The report of `a` is older than the heartbeat.
    rw [hm] at hts
    have heleven : some (11 : ℚ) = some ts := hts
    rw [← Option.some.inj heleven] at hle
    exact absurd hle (by decide +kernel)
  · rw [hm] at htype
    exact absurd htype (by decide +kernel)
  · rw [hm] at hfrom
    exact absurd hfrom (by decide +kernel)

/-- `p` is suspected and reported, heard from, and then reported twice. -/
def promptHistory : List WatchEvent :=
  [heartbeat "1" 0, .beat (.detect (env 11)), report "2" "a" 11, heartbeat "3" 12,
   report "4" "b" 13, report "5" "c" 14]

theorem prompt_fresh : Machine.Along Watch.step Watch.TwoFresh ⟨layer.fresh, []⟩ promptHistory ∧
    (Machine.run Watch.step ⟨layer.fresh, []⟩ promptHistory).map
      (fun w => decide (w.layer.deadAt (.str (lit "p")))) = some true := by
  -- The events of the history one by one.
  refine ⟨fresh_reports layer promptHistory ?_, by decide +kernel⟩
  intro w₁ h₁
  refine ⟨⟨fun _ => ⟨fun k _ => Or.inl ?_, fun k _ => Or.inr ?_⟩, fun _ k _ => Or.inl ?_⟩, ?_⟩
  · exact fun r hr => absurd hr (Finset.notMem_empty r)
  · exact fun r hr => absurd hr (Finset.notMem_empty r)
  · exact fun r hr => absurd hr (Finset.notMem_empty r)
  rw [← Option.some.inj h₁]
  refine fun w₂ h₂ => ⟨fun k hk => hk.elim, ?_⟩
  rw [← Option.some.inj h₂]
  refine fun w₃ h₃ => ⟨⟨fun hd => absurd hd (by decide +kernel),
    fun hd => absurd hd (by decide +kernel)⟩, ?_⟩
  rw [← Option.some.inj h₃]
  refine fun w₄ h₄ => ⟨⟨fun _ => ⟨fun k hk => Or.inr ?_, fun k hk => ?_⟩,
    fun hd => absurd hd (by decide +kernel)⟩, ?_⟩
  · -- The detector has suspected the peer, so the heartbeat revives it.
    rw [← Except.ok.inj hk.2]
    refine ⟨⟨fun _ => ⟨1, rfl⟩, fun _ => ⟨.num 30, rfl⟩, fun _ => ⟨[], rfl⟩,
      fun _ => ⟨.num (1 / 100), rfl⟩⟩,
      ?_⟩
    exact ⟨.suspected, by decide +kernel, by decide⟩
  · rcases hk with ⟨_, _, ps, hps, p, hp, _⟩
    rw [← Except.ok.inj hps] at hp
    exact absurd hp List.not_mem_nil
  rw [← Option.some.inj h₄]
  refine fun w₅ h₅ => ⟨⟨fun hd => absurd hd (by decide +kernel),
    fun hd => absurd hd (by decide +kernel)⟩, ?_⟩
  rw [← Option.some.inj h₅]
  exact fun w₆ _ => ⟨⟨fun hd => absurd hd (by decide +kernel),
    fun hd => absurd hd (by decide +kernel)⟩, trivial⟩

end Refuted

end WhisperNet
