import WhisperNet.Cluster.Flood
import WhisperNet.Membership.Overlay

/-!
# Whom a Node Tells that It Joined

A node that starts adds every key it is connected to, and then announces itself
to the keys of the last sync, of which there is none yet. Afterwards a sync
tells the connected keys that are not in the table, and the keys from the start
are in it. So they are never told, and neither is a key that the node heard of
before a sync has shown it.

No message but these is a join of the node itself: what it relays has another
sender, as it drops what comes under its own key.

## Main definitions

* `IsOwnJoin`: A join that a node sends for itself.
* `Overlay.Told`: A key was sent such a join.
* `Overlay.Shown`: A key was connected in some snapshot.
* `Overlay.Announced`: Every key shown was told.
* `Overlay.Greets`: No key of a sync is known before it is shown.

## Theorems

* `knows_of_changes`: No change forgets a key.
* `axlSync_joins`: The joins of a sync go to the keys that are new.
* `ownJoin_of_act`: Only a sync sends joins of the node itself.
* `Overlay.step_announced_iff`: One step.
* `Overlay.announced_iff`: When every key shown has been told.
* `Seeded.untold`: A key that is connected when the node starts.
-/

namespace WhisperNet

open MembershipLayer WhisperNet.Action
open PyVal (get getD)

/-- A join that the node with this key sends for itself. -/
def IsOwnJoin (own : PyStr) (o : Send) : Prop :=
  get o.msg (lit "type") = .str (lit "node_join") ∧ get o.msg (lit "from") = .str own

/-! ## Who is known -/

/-- No change forgets a key. -/
theorem knows_of_changes {own : PyStr} {N : Key → Prop} {A : Change → Prop}
    {s t : MembershipLayer} (h : Changes own N A s t) {k : Key} (hk : s.knows k) : t.knows k := by
  induction h with
  | refl => exact hk
  | @tail u v _ hlast ih =>
      rcases hlast with ⟨c, _, _, hg, ht⟩
      unfold MembershipLayer.knows at ih ⊢
      rw [ht, statusAt_apply own u c hg k]
      cases c with
      | insert now k' =>
          by_cases hkk : k = k'
          · simp only [Change.statusAfter, hkk, if_true, ne_eq, reduceCtorEq, not_false_eq_true]
          · simpa only [Change.statusAfter, if_neg hkk] using ih
      | revive k' => exact fun hn => ih ((statusMoved_eq_none u _ k' k).mp hn)
      | suspect k' => exact fun hn => ih ((statusMoved_eq_none u _ k' k).mp hn)
      | condemn k' => exact fun hn => ih ((statusMoved_eq_none u _ k' k).mp hn)
      | advertise k' f => exact ih
      | openReports k' => exact ih
      | addReport k' r => exact ih
      | seen v => exact ih
      | connect ks => exact ih

theorem discover_knows (now : ℚ) (k : Key) (s : MembershipLayer) :
    (discover now k s).state.knows k := by
  unfold discover
  rw [read_bind]
  cases hk : s.peers.get? k with
  | some p => exact (knows_iff s k).mpr ⟨p, hk⟩
  | none =>
      refine (knows_iff _ k).mpr ⟨{ lastSeen := now }, ?_⟩
      simp only [Option.isNone_none, if_true, modify_bind, logKey_state]
      exact Dict.get?_set_self _ _ _

/-- Every text key on a list is known once it has been added. -/
theorem discoverAll_knows (now : ℚ) (ks : List Key) (hks : ∀ k ∈ ks, IsText k) {k : Key}
    (hk : k ∈ ks) (s : MembershipLayer) : (each (discover now) ks s).state.knows k :=
  state_each ks (fun k' hk' => discover_returns now (hks k' hk'))
    (fun k' _ t ht => knows_of_records (discover_records now k' t).1 ht) hk
    (discover_knows now k) s

theorem addPeer_changes (now : ℚ) (x : PyStr) (s : MembershipLayer) :
    Changes s.ourKey (fun _ => True) (fun _ => True) s (addPeer now x s).state :=
  (addPeer_within now x trivial trivial s).1 rfl

theorem seeding_ourKey (now : ℚ) (keys : List PyStr) (s : MembershipLayer) :
    (each (addPeer now) keys s).state.ourKey = s.ourKey :=
  (within_each (F := keep (fun t => t.ourKey = s.ourKey) (fun _ => True)) keys
    (fun x _ t => ⟨fun ht => (ourKey_of_changes (addPeer_changes now x t)).trans ht,
      fun _ _ _ => trivial⟩) s).1 rfl

/-- And so is every key from the topology at the start, except the own one. -/
theorem seeding_knows (now : ℚ) (keys : List PyStr) {x : PyStr} (hx : x ∈ keys)
    (s : MembershipLayer) (hne : x ≠ s.ourKey) :
    (each (addPeer now) keys s).state.knows (.str x) := by
  have hreturns : ∀ y ∈ keys, Returns (addPeer now y) := by
    intro y _
    refine returns_read_bind (fun t => ?_)
    split
    · exact discover_returns now ⟨y, rfl⟩
    · exact returns_pure ()
  refine state_each (f := addPeer now) (Q := fun t => t.ourKey = s.ourKey → t.knows (.str x)) keys
    hreturns (fun y _ t ht hafter => ?_) hx (fun t hafter => ?_) s (seeding_ourKey now keys s)
  · exact knows_of_changes (addPeer_changes now y t)
      (ht ((ourKey_of_changes (addPeer_changes now y t)).symm.trans hafter))
  · have hbefore : t.ourKey = s.ourKey :=
      (ourKey_of_changes (addPeer_changes now x t)).symm.trans hafter
    unfold addPeer
    rw [read_bind, if_pos (hbefore ▸ hne)]
    exact discover_knows now (.str x) t

/-- After a sync, the node knows every key that is connected. -/
theorem axlSync_knows (env : MemberEnv) (connectedKeys : List PyStr) (s : MembershipLayer)
    {x : PyStr} (hx : x ∈ connectedKeys) (hne : x ≠ s.ourKey) :
    (axlSync env connectedKeys s).state.knows (.str x) := by
  by_cases hold : s.knows (.str x)
  · exact knows_of_changes (axlSync_changes env connectedKeys s) hold
  · have hmem : .str x ∈ s.unknown connectedKeys :=
      (mem_unknown s connectedKeys _).mpr ⟨x, hx, rfl, hne, hold⟩
    rw [axlSync_state]
    exact knows_of_changes
      ((suspectSilent_within (N := fun _ => True) (A := fun _ => True) _ _ _
        (fun _ => trivial) _).1 rfl)
      (discoverAll_knows env.now _ (unknown_text s connectedKeys) hmem _)

/-! ## Joins that a node sends -/

/-- The output of an operation that leaves the node's key alone. -/
def joinFrame (own : PyStr) (O : Send → Prop) : Frame MembershipLayer Send :=
  keep (fun s => s.ourKey = own) O

theorem joinFrame_of_changes {α : Type} {own : PyStr} {A : Change → Prop} {x : Act α}
    (O : Send → Prop) (hx : Within (memberFrame own (fun _ => True) A) x)
    (hquiet : Within quiet x) : Within (joinFrame own O) x := fun s =>
  withinAt_of_quiet (hquiet s) (fun hs => (ourKey_of_changes ((hx s).1 hs)).trans hs)

/-- The gossip of a suspicion is no join. -/
theorem gossipSuspicion_joinFrame (own : PyStr) (env : MemberEnv) (suspect : Key) :
    Within (joinFrame own (fun o => get o.msg (lit "type") ≠ .str (lit "node_join")))
      (gossipSuspicion env suspect) := by
  intro s
  have hfanout := fanout_still env
    [(lit "type", .str (lit "suspicion")), (lit "msg_id", .str (env.uuid suspect)),
     (lit "from", .str s.ourKey), (lit "suspect", suspect.toVal),
     (lit "timestamp", .float env.now), (lit "hops", .int gossipHops)] s
  refine withinAt_of_still hfanout (fun o ho _ => ?_)
  change get o.msg (lit "type") ≠ _
  rw [ho.1]
  change PyVal.str (lit "suspicion") ≠ .str (lit "node_join")
  decide

/-- The joins of a sync are those of the node itself, to the keys that are new. -/
theorem axlSync_joins (env : MemberEnv) (connectedKeys : List PyStr) (s : MembershipLayer) :
    ∀ o ∈ (axlSync env connectedKeys s).out, get o.msg (lit "type") = .str (lit "node_join") →
      get o.msg (lit "from") = .str s.ourKey ∧ o.dest ∈ s.unknown connectedKeys := by
  intro o ho
  let O : Send → Prop := fun o => get o.msg (lit "type") = .str (lit "node_join") →
    get o.msg (lit "from") = .str s.ourKey ∧ o.dest ∈ s.unknown connectedKeys
  refine (withinAt_read_bind (F := joinFrame s.ourKey O) (f := fun s' => _) ?_).2 o ho rfl
  refine within_bind (fun t => withinAt_modify (fun ht => ht)) (fun _ => ?_) s
  refine within_bind (within_each _ (fun k hk => ?_)) (fun _ => ?_)
  · rcases (mem_unknown s connectedKeys k).mp hk with ⟨x, _, hkx, hne, _⟩
    refine joinFrame_of_changes (A := fun _ => True) O ?_ (discover_quiet env.now k)
    exact discover_within env.now k trivial trivial (fun hc => hne (Key.str.inj (hkx ▸ hc)))
  refine within_bind ?_ (fun newlySuspected => ?_)
  · exact joinFrame_of_changes (A := fun _ => True) O
      (suspectSilent_within _ _ _ (fun _ => trivial)) (suspectSilent_quiet _ _ _)
  refine within_bind (within_each _ (fun k hk t => ?_)) (fun _ =>
    within_each newlySuspected (fun k _ t => ?_))
  · rcases (mem_unknown s connectedKeys k).mp hk with ⟨x, _, hkx, _⟩
    rw [hkx]
    refine withinAt_read_bind (withinAt_emit (fun ht _ => ⟨?_, hkx ▸ hk⟩))
    change get (t.withEncPubkey _) (lit "from") = _
    rw [PyVal.get, lookup_withEncPubkey _ _ _ (by decide), ← ht]
    rfl
  · -- A suspicion is no join, whatever it is about.
    have hgossip := gossipSuspicion_joinFrame s.ourKey env k t
    exact ⟨hgossip.1, fun o ho ht htype => absurd htype (hgossip.2 o ho ht)⟩

/-- A node drops a join that comes under its own key. -/
theorem handleMessage_own_join (env : MemberEnv) (fromPeer : PyVal) {msg : Msg}
    {s : MembershipLayer} (htype : get msg (lit "type") = .str (lit "node_join"))
    (hfrom : get msg (lit "from") = .str s.ourKey) :
    (handleMessage env fromPeer msg s).out = [] := by
  have hheart : ¬ pyEq (get msg (lit "type")) (.str (lit "heartbeat")) = true := by
    rw [htype]
    decide
  have hsusp : ¬ pyEq (get msg (lit "type")) (.str (lit "suspicion")) = true := by
    rw [htype]
    decide
  unfold handleMessage
  rw [read_bind]
  split
  · simp only [modify_bind, if_neg hheart, if_neg hsusp]
    rw [if_pos ((pyEq_str _ _).mpr htype)]
    unfold onNodeJoin
    have hown : (markSeen (get msg (lit "msg_id")) s).ourKey = s.ourKey := rfl
    -- The guard on the sender's key fails, so nothing is recorded or relayed.
    have hself : ¬ ((get msg (lit "from")).truthy
        && !pyEq (get msg (lit "from")) (.str s.ourKey)) = true := by
      rw [hfrom, pyEq_refl, Bool.not_true, Bool.and_false]
      exact Bool.false_ne_true
    rw [read_bind, hown, if_neg hself]
    rfl
  · rfl

/-- Only a sync sends joins of the node itself, to the keys that are new. -/
theorem ownJoin_of_act (e : OverlayEvent) (s : MembershipLayer) (o : Send)
    (ho : o ∈ (e.act s).out) (hjoin : IsOwnJoin s.ourKey o) :
    ∃ env connectedKeys, e = .sync env connectedKeys ∧ o.dest ∈ s.unknown connectedKeys := by
  cases e with
  | receive env fromPeer msg =>
      -- A relay has the type and the sender of its message.
      have hrelay := (handleMessage_relays env fromPeer msg s).2 o ho
      have hsame : ∀ field, field ≠ lit "hops" → get msg field = get o.msg field := by
        intro field hfield
        unfold PyVal.get
        rw [lookup_relayed hrelay hfield]
      have hnone := handleMessage_own_join env fromPeer (s := s)
        ((hsame _ (by decide)).trans hjoin.1) ((hsame _ (by decide)).trans hjoin.2)
      rw [OverlayEvent.act, hnone] at ho
      exact absurd ho List.not_mem_nil
  | heartbeat env =>
      have hmsg := ((sendAll_still _ _ s).2 o ho).1
      have htype := hjoin.1
      rw [hmsg, PyVal.get, lookup_withEncPubkey _ _ _ (by decide)] at htype
      have hheart : PyVal.str (lit "heartbeat") = .str (lit "node_join") := htype
      exact absurd hheart (by decide)
  | detect env =>
      have hdetect : WithinAt (joinFrame s.ourKey
          (fun o => get o.msg (lit "type") ≠ .str (lit "node_join"))) (detectFailures env) s := by
        refine withinAt_read_bind (within_bind ?_ (fun suspectedNow =>
          within_each suspectedNow (fun k _ t => ?_)) s)
        · exact joinFrame_of_changes (A := fun _ => True) _
            (suspectSilent_within _ _ _ (fun _ => trivial)) (suspectSilent_quiet _ _ _)
        · exact gossipSuspicion_joinFrame s.ourKey env k t
      exact absurd hjoin.1 (hdetect.2 o ho rfl)
  | sync env connectedKeys =>
      exact ⟨env, connectedKeys, rfl, (axlSync_joins env connectedKeys s o ho hjoin.1).2⟩

/-! ## Runs -/

namespace Overlay

/-- The key was sent a join of the node. -/
def Told (s : Overlay) (x : PyStr) : Prop :=
  ∃ o ∈ s.sent, o.dest = .str x ∧ IsOwnJoin s.layer.ourKey o

instance (s : Overlay) (x : PyStr) : Decidable (s.Told x) :=
  inferInstanceAs (Decidable (∃ o ∈ s.sent, o.dest = .str x ∧
    get o.msg (lit "type") = .str (lit "node_join") ∧
    get o.msg (lit "from") = .str s.layer.ourKey))

/-- The key was connected in the snapshot of the start, or of a sync. -/
def Shown (s : Overlay) (x : PyStr) : Prop := x ∈ s.seeded ∨ ∃ keys ∈ s.past, x ∈ keys

/-- Every other key that was connected was told. -/
def Announced (s : Overlay) : Prop := ∀ x, s.Shown x → x ≠ s.layer.ourKey → s.Told x

/-- A key that no sync has shown before is not in the table yet. -/
def Greets (s : Overlay) : OverlayEvent → Prop
  | .sync _ connectedKeys => ∀ x ∈ connectedKeys, x ≠ s.layer.ourKey →
      (∃ keys ∈ s.past, x ∈ keys) ∨ ¬ s.layer.knows (.str x)
  | _ => True

/-- Who was shown is known, and who was told was shown in a sync. -/
structure Recorded (s : Overlay) : Prop where
  known : ∀ x, s.Shown x → x ≠ s.layer.ourKey → s.layer.knows (.str x)
  told : ∀ x, s.Told x → ∃ keys ∈ s.past, x ∈ keys

variable {s s' : Overlay} {e : OverlayEvent}

theorem act_changes (e : OverlayEvent) (s : MembershipLayer) :
    ∃ A, Changes s.ourKey (fun _ => True) A s (e.act s).state := by
  cases e with
  | receive env fromPeer msg =>
      exact ⟨_, (handleMessage_within env fromPeer msg (fun _ _ => trivial) s).1 rfl⟩
  | heartbeat env =>
      exact ⟨fun _ => False, (broadcastHeartbeat_within env trivial s).1 rfl⟩
  | detect env => exact ⟨_, (detectFailures_within env trivial s).1 rfl⟩
  | sync env connectedKeys =>
      exact ⟨_, (axlSync_within env connectedKeys trivial (fun _ _ => trivial) s).1 rfl⟩

/-- A key is told in a step if it is new to the table in a sync. -/
theorem step_told_iff (h : s.step e = some s') (x : PyStr) :
    s'.layer.ourKey = s.layer.ourKey ∧ (s'.Told x ↔ s.Told x ∨ ∃ env connectedKeys,
      e = .sync env connectedKeys ∧ x ∈ connectedKeys ∧ x ≠ s.layer.ourKey ∧
        ¬ s.layer.knows (.str x)) := by
  simp only [step, Option.some.injEq] at h
  rcases act_changes e s.layer with ⟨A, hchanges⟩
  have hown : s'.layer.ourKey = s.layer.ourKey := by
    rw [← h]
    exact ourKey_of_changes hchanges
  refine ⟨hown, ?_⟩
  have hsent : s'.sent = s.sent ++ (e.act s.layer).out := by rw [← h]
  unfold Told
  rw [hown, hsent]
  constructor
  · rintro ⟨o, ho, hdest, hjoin⟩
    -- Sent before this step, or by a sync to a key that is new.
    rcases List.mem_append.mp ho with ho | ho
    · exact Or.inl ⟨o, ho, hdest, hjoin⟩
    · rcases ownJoin_of_act e s.layer o ho hjoin with ⟨env, connectedKeys, he, hnew⟩
      rcases (mem_unknown s.layer connectedKeys _).mp hnew with ⟨y, hy, hdy, hne, hunk⟩
      have hxy : x = y := Key.str.inj (hdest.symm.trans hdy)
      rw [← hxy] at hy hne hunk
      exact Or.inr ⟨env, connectedKeys, he, hy, hne, hunk⟩
  · rintro (⟨o, ho, hrest⟩ | ⟨env, connectedKeys, he, hx, hne, hunk⟩)
    · exact ⟨o, List.mem_append_left _ ho, hrest⟩
    · rcases sync_greets s.layer env connectedKeys x hx hne hunk with ⟨o, ho, hdest, htype⟩
      have hfrom := (axlSync_joins env connectedKeys s.layer o ho htype).1
      rw [he]
      exact ⟨o, List.mem_append_right _ ho, hdest, htype, hfrom⟩

/-- A key is shown in a step if a sync finds it connected. -/
theorem step_shown_iff (h : s.step e = some s') (x : PyStr) :
    s'.Shown x ↔ s.Shown x ∨ ∃ env connectedKeys, e = .sync env connectedKeys ∧
      x ∈ connectedKeys := by
  simp only [step, Option.some.injEq] at h
  rw [← h]
  cases e with
  | sync env connectedKeys =>
      simp only [Shown, OverlayEvent.snapshot, Option.map_some, Option.toList_some,
        List.singleton_append, List.exists_mem_cons_iff, OverlayEvent.sync.injEq]
      constructor
      · rintro (hx | hx | hx)
        · exact Or.inl (Or.inl hx)
        · exact Or.inr ⟨env, connectedKeys, ⟨rfl, rfl⟩, hx⟩
        · exact Or.inl (Or.inr hx)
      · rintro ((hx | hx) | ⟨_, _, ⟨_, rfl⟩, hx⟩)
        · exact Or.inl hx
        · exact Or.inr (Or.inr hx)
        · exact Or.inr (Or.inl hx)
  | _ =>
      simp only [Shown, OverlayEvent.snapshot, Option.map_none, Option.toList_none,
        List.nil_append, reduceCtorEq, false_and, exists_false, or_false]

theorem step_recorded (hs : s.Recorded) (h : s.step e = some s') : s'.Recorded := by
  have hlayer : s'.layer = (e.act s.layer).state := by
    simp only [step, Option.some.injEq] at h
    rw [← h]
  have hpast : s'.past = (e.snapshot.map Prod.snd).toList ++ s.past := by
    simp only [step, Option.some.injEq] at h
    rw [← h]
  rcases act_changes e s.layer with ⟨A, hchanges⟩
  refine ⟨fun x hx hne => ?_, fun x hx => ?_⟩
  · rw [(step_told_iff h x).1] at hne
    rw [hlayer]
    -- A key stays in the table, and a sync puts its keys there.
    rcases (step_shown_iff h x).mp hx with hx | ⟨env, connectedKeys, he, hx⟩
    · exact knows_of_changes hchanges (hs.known x hx hne)
    · rw [he]
      exact axlSync_knows env connectedKeys s.layer hx hne
  · rw [hpast]
    rcases (step_told_iff h x).2.mp hx with hx | ⟨env, connectedKeys, he, hx, _⟩
    · rcases hs.told x hx with ⟨keys, hkeys, hxk⟩
      exact ⟨keys, List.mem_append_right _ hkeys, hxk⟩
    · rw [he]
      exact ⟨connectedKeys, List.mem_cons_self .., hx⟩

theorem step_announced_iff (hs : s.Recorded) (hall : s.Announced) (h : s.step e = some s') :
    s'.Announced ↔ s.Greets e := by
  have hown := (step_told_iff h []).1
  unfold Announced
  rw [hown]
  simp only [step_shown_iff h, (step_told_iff h _).2]
  constructor
  · intro hafter
    cases e with
    | sync env connectedKeys =>
        intro x hx hne
        rcases hafter x (Or.inr ⟨env, connectedKeys, rfl, hx⟩) hne with
          htold | ⟨_, _, _, _, _, hunk⟩
        · exact Or.inl (hs.told x htold)
        · exact Or.inr hunk
    | receive env fromPeer msg => trivial
    | heartbeat env => trivial
    | detect env => trivial
  · rintro hgreets x (hx | ⟨env, connectedKeys, he, hx⟩) hne
    · exact Or.inl (hall x hx hne)
    · rw [he] at hgreets
      -- Told earlier, when an earlier sync showed it, or told now.
      rcases hgreets x hx hne with hpast | hunk
      · exact Or.inl (hall x (Or.inr hpast) hne)
      · exact Or.inr ⟨env, connectedKeys, he, hx, hne, hunk⟩

/-- Nobody who is not told when first shown is told later. -/
theorem announced_of_step (hs : s.Recorded) (h : s.step e = some s') (hafter : s'.Announced) :
    s.Announced := by
  intro x hx hne
  have hne' : x ≠ s'.layer.ourKey := by
    rw [(step_told_iff h x).1]
    exact hne
  have htold := hafter x ((step_shown_iff h x).mpr (Or.inl hx)) hne'
  rcases (step_told_iff h x).2.mp htold with htold | ⟨_, _, _, _, _, hunk⟩
  · exact htold
  · exact absurd (hs.known x hx hne) hunk

/-- Every key that was ever connected has been told if and only if none but the
    node's own was connected at the start, and none that a sync shows for the
    first time is in the table before. -/
theorem announced_iff (env : MemberEnv) (connectedKeys : List PyStr) (layer : MembershipLayer)
    (es : List OverlayEvent) :
    (∀ t, Machine.run step (start env connectedKeys layer) es = some t → t.Announced) ↔
      (∀ x ∈ connectedKeys, x = layer.ourKey) ∧
        Machine.Along step Greets (start env connectedKeys layer) es := by
  have hseeding : ∀ x ∈ connectedKeys, x ≠ layer.ourKey →
      (start env connectedKeys layer).layer.knows (.str x) := by
    intro x hx hne
    rw [start_eq]
    exact seeding_knows env.now connectedKeys hx layer.fresh hne
  have hown : (start env connectedKeys layer).layer.ourKey = layer.ourKey := by
    rw [start_eq]
    exact seeding_ourKey env.now connectedKeys layer.fresh
  have hshown : ∀ x, (start env connectedKeys layer).Shown x ↔ x ∈ connectedKeys := by
    intro x
    rw [start_eq]
    simp only [Shown, List.not_mem_nil, false_and, exists_false, or_false]
  have htold : ∀ x, ¬ (start env connectedKeys layer).Told x := by
    intro x
    rw [start_eq]
    simp only [Told, List.not_mem_nil, false_and, exists_false, not_false_eq_true]
  have hrecorded : (start env connectedKeys layer).Recorded :=
    ⟨fun x hx hne => hseeding x ((hshown x).mp hx) (hown ▸ hne), fun x hx => absurd hx (htold x)⟩
  have hstart : (start env connectedKeys layer).Announced ↔
      ∀ x ∈ connectedKeys, x = layer.ourKey := by
    unfold Announced
    simp only [hshown, hown, htold, imp_false, not_not]
  have halong : (start env connectedKeys layer).Announced →
      (Machine.Throughout step Announced (start env connectedKeys layer) es ↔
        Machine.Along step Greets (start env connectedKeys layer) es) := by
    intro hall
    rw [Machine.throughout_congr step Recorded Announced (fun u => u.Announced ∧ u.Recorded)
      (fun u e u' hu h => step_recorded hu h) (fun u hu => (and_iff_left hu).symm) _ es hrecorded]
    refine Machine.throughout_iff_along step _ Greets (fun u e u' hu h => ?_) _ es
      ⟨hall, hrecorded⟩
    rw [and_iff_left (step_recorded hu.2 h)]
    exact step_announced_iff hu.2 hu.1 h
  rw [Machine.throughout_iff_last step Recorded Announced (fun u e => ⟨_, rfl⟩)
    (fun u e u' hu h => step_recorded hu h) (fun u e u' hu h => announced_of_step hu h) _ es
    hrecorded]
  -- The start is announced when it has the keys, and every step when it greets them.
  constructor
  · exact fun h => ⟨hstart.mp h.head, (halong h.head).mp h⟩
  · rintro ⟨hkeys, hgreets⟩
    exact (halong (hstart.mpr hkeys)).mpr hgreets

end Overlay

/-! ## A key that is connected when the node starts -/

namespace Seeded

open Overlay

def node : MembershipLayer := { ourKey := lit "n" }

/-- The key is connected in every snapshot, and was known before the first sync. -/
def events : List OverlayEvent :=
  [.heartbeat MemberEnv.plain, .sync MemberEnv.plain [lit "a"], .sync MemberEnv.plain [lit "a"]]

theorem untold : ¬ ∀ t, Machine.run step (start MemberEnv.plain [lit "a"] node) events = some t →
    t.Announced := by
  intro hall
  exact absurd (hall _ rfl (lit "a") (Or.inl (by decide +kernel)) (by decide +kernel))
    (by decide +kernel)

end Seeded

end WhisperNet
