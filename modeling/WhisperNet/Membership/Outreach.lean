import WhisperNet.Membership.Effects

/-!
# Whom a Node Contacts

The three ways a node sends membership messages of its own accord: the
heartbeat broadcast, the topology sync, and the relay of gossip. All three
leave out the peers that are marked dead. The heartbeat goes to every other
peer in the table, and the sync greets every connected key that is not in the
table, so between them a node can contact exactly the keys it has not marked
dead.

## Main definitions

* `Outreach`: A periodic action that sends membership messages.
* `Outreach.reaches`: Whether one of its messages goes to a key.
* `Outreach.covers`: A topology that contains some keys.
* `IsText`: A key that is a string.

## Theorems

* `not_dead_of_reaches`: No message goes to a peer marked dead.
* `heartbeat_reaches`: A heartbeat goes to every known peer not marked dead.
* `sync_reaches`: A sync greets every connected key it does not know.
* `exists_reaches_iff`: A node can contact a key if and only if it has not
  marked it dead.
-/

namespace WhisperNet

open MembershipLayer WhisperNet.Action
open PyVal (get getD)

/-- A periodic action that sends membership messages. -/
inductive Outreach
  | heartbeat (env : MemberEnv)
  | sync (env : MemberEnv) (connectedKeys : List PyStr)
  | gossip (env : MemberEnv) (msg : Msg)

namespace Outreach

def act : Outreach → Act Unit
  | .heartbeat env => broadcastHeartbeat env
  | .sync env connectedKeys => axlSync env connectedKeys
  | .gossip env msg => fanout env msg

/-- One of the messages goes to the key. -/
def reaches (s : MembershipLayer) (a : Outreach) (k : Key) : Prop :=
  ∃ o ∈ (a.act s).out, o.dest = k

/-- The topology of a sync contains the group. -/
def covers (group : PyStr → Prop) : Outreach → Prop
  | .sync _ connectedKeys => ∀ x, group x → x ∈ connectedKeys
  | _ => True

end Outreach

/-- A call at time zero whose messages all have one id. -/
def MemberEnv.plain : MemberEnv where
  now := 0
  uuid := fun _ => lit "id"
  tasksHeld := []
  shuffle := fun _ ks => ks
  shuffle_perm := fun _ _ => List.Perm.refl _

def IsText (k : Key) : Prop := ∃ x, k = .str x

/-! ## Only to peers that are not dead -/

/-- Relative to a fixed state: its dead peers stay dead, and are not sent to. -/
def sparing (s₀ : MembershipLayer) : Frame MembershipLayer Send :=
  keep (fun s => s.ourKey = s₀.ourKey ∧ ∀ k, s₀.deadAt k → s.deadAt k)
    (fun o => ¬ s₀.deadAt o.dest)

theorem fanout_sparing (s₀ : MembershipLayer) (env : MemberEnv) (msg : Msg) :
    Within (sparing s₀) (fanout env msg) := by
  intro s
  refine withinAt_of_still (fanout_still env msg s) (fun o ho hs hdead => ?_)
  exact ((mem_getAlivePeers s o.dest).mp ho.2).2 (hs.2 o.dest hdead)

theorem sendJoinTo_sparing (s₀ : MembershipLayer) (env : MemberEnv) (hops : Int) (k : Key)
    (hk : ¬ s₀.deadAt k) : Within (sparing s₀) (sendJoinTo env hops k) := by
  refine fun s => withinAt_read_bind ?_
  cases k with
  | num q => exact within_raise _ s
  | none => exact withinAt_emit (fun _ => hk)
  | str x => exact withinAt_emit (fun _ => hk)

/-- What changes the table without a revival and sends nothing. -/
theorem sparing_of_changes {α : Type} {s₀ : MembershipLayer} {A : Change → Prop} {x : Act α}
    (hA : ∀ k, ¬ A (.revive k)) (hx : Within (memberFrame s₀.ourKey (fun _ => True) A) x)
    (hquiet : Within quiet x) : Within (sparing s₀) x := by
  refine fun s => withinAt_of_quiet (hquiet s) (fun hs => ?_)
  have hchanges := (hx s).1 hs.1
  exact ⟨by rw [ourKey_of_changes hchanges, hs.1],
    fun k hk => dead_of_changes (hA k) hchanges (hs.2 k hk)⟩

theorem logKey_quiet (k : Key) : Within quiet (logKey k) := by
  cases k with
  | str x => exact within_pure ()
  | none => exact within_raise _
  | num q => exact within_raise _

theorem discover_quiet (now : ℚ) (k : Key) : Within quiet (discover now k) := by
  refine fun s => withinAt_read_bind ?_
  cases hk : s.peers.get? k with
  | some p => exact within_pure () s
  | none => exact within_bind (quiet_modify _) (fun _ => logKey_quiet k) s

theorem suspectSilent_quiet (now limit : ℚ) (ks : List Key) :
    Within quiet (suspectSilent now limit ks) := by
  induction ks with
  | nil => exact within_pure []
  | cons k ks ih =>
      refine fun s => withinAt_read_bind ?_
      by_cases hk : s.silent now limit k = true
      · rw [if_pos hk]
        refine within_bind (quiet_modify _) (fun _ => ?_) s
        exact within_bind (logKey_quiet k) (fun _ => within_bind ih (fun _ => within_pure _))
      · rw [if_neg hk]
        exact ih s

/-- A key that is unknown is connected, not in the table and not our own. -/
theorem mem_unknown (s : MembershipLayer) (connectedKeys : List PyStr) (k : Key) :
    k ∈ s.unknown connectedKeys ↔
      ∃ x ∈ connectedKeys, k = .str x ∧ x ≠ s.ourKey ∧ ¬ s.knows (.str x) := by
  have hknows : ∀ x, ¬ s.knows (.str x) ↔ s.peers.get? (.str x) = none := fun x => by
    unfold MembershipLayer.knows statusAt
    rw [not_not, Option.map_eq_none_iff]
  simp only [unknown, List.mem_map, List.mem_filter, List.mem_dedup, decide_eq_true_eq, hknows]
  constructor
  · rintro ⟨x, ⟨hx, hne, hnew⟩, hk⟩
    exact ⟨x, hx, hk.symm, hne, hnew⟩
  · rintro ⟨x, hx, hk, hne, hnew⟩
    exact ⟨x, ⟨hx, hne, hnew⟩, hk.symm⟩

theorem unknown_text (s : MembershipLayer) (connectedKeys : List PyStr) :
    ∀ k ∈ s.unknown connectedKeys, IsText k := by
  intro k hk
  rcases (mem_unknown s connectedKeys k).mp hk with ⟨x, _, hkx, _⟩
  exact ⟨x, hkx⟩

theorem axlSync_sparing (env : MemberEnv) (connectedKeys : List PyStr) (s : MembershipLayer) :
    WithinAt (sparing s) (axlSync env connectedKeys) s := by
  -- A peer marked dead is in the table, so it is not a new one.
  have hnew : ∀ k ∈ s.unknown connectedKeys, ¬ s.deadAt k ∧ k ≠ .str s.ourKey := by
    intro k hk
    rcases (mem_unknown s connectedKeys k).mp hk with ⟨x, _, hkx, hne, hunk⟩
    rw [hkx]
    refine ⟨fun hdead => hunk ?_, fun hc => hne (Key.str.inj hc)⟩
    unfold MembershipLayer.knows
    rw [show s.statusAt (.str x) = some .dead from hdead]
    exact fun hc => nomatch hc
  refine withinAt_read_bind (within_bind ?_ (fun _ => ?_) s)
  · refine sparing_of_changes (A := fun c => ∃ ks, c = .connect ks) ?_ (fun t => ?_)
      (quiet_modify _)
    · rintro k ⟨ks, hk⟩
      exact (nomatch hk)
    · exact change_within (.connect connectedKeys) ⟨_, rfl⟩ (fun _ h => nomatch h) t
        (fun _ => trivial)
  refine within_bind (within_each _ (fun k hk => ?_)) (fun _ => ?_)
  · refine sparing_of_changes (A := fun c => ∃ now k, c = .insert now k) ?_ ?_
      (discover_quiet env.now k)
    · rintro k' ⟨now, k'', hk'⟩
      exact (nomatch hk')
    · exact discover_within env.now k ⟨_, _, rfl⟩ trivial (hnew k hk).2
  refine within_bind ?_ (fun newlySuspected => ?_)
  · refine sparing_of_changes (A := ByTick) (fun _ hc => hc) ?_ (suspectSilent_quiet _ _ _)
    exact suspectSilent_within _ _ _ (fun _ => trivial)
  refine within_bind (within_each _ (fun k hk => sendJoinTo_sparing s env 1 k (hnew k hk).1))
    (fun _ => within_each newlySuspected (fun k _ t => ?_))
  exact withinAt_read_bind (fanout_sparing s env _ t)

/-- No message of a periodic action goes to a peer marked dead. -/
theorem not_dead_of_reaches (s : MembershipLayer) (a : Outreach) (k : Key)
    (h : a.reaches s k) : ¬ s.deadAt k := by
  have hself : s.ourKey = s.ourKey ∧ ∀ k, s.deadAt k → s.deadAt k := ⟨rfl, fun _ h => h⟩
  rcases h with ⟨o, ho, hdest⟩
  rw [← hdest]
  cases a with
  | heartbeat env =>
      have hout := (sendAll_still s.getAlivePeers _ s).2 o ho
      exact ((mem_getAlivePeers s o.dest).mp hout.2).2
  | sync env connectedKeys => exact (axlSync_sparing env connectedKeys s).2 o ho hself
  | gossip env msg => exact (fanout_sparing s env msg s).2 o ho hself

/-! ## To every peer that is not dead -/

theorem send_returns {k : Key} (hk : IsText k) (msg : Msg) : Returns (send k msg) := by
  rcases hk with ⟨x, hx⟩
  rw [hx]
  exact returns_emit _

theorem send_emits {k : Key} (hk : IsText k) (msg : Msg) :
    Emits (fun o => o.dest = k) (send k msg) := by
  rcases hk with ⟨x, hx⟩
  rw [hx]
  exact fun _ => ⟨_, List.mem_singleton.mpr rfl, rfl⟩

theorem logKey_returns {k : Key} (hk : IsText k) : Returns (logKey k) := by
  rcases hk with ⟨x, hx⟩
  rw [hx]
  exact returns_pure ()

theorem discover_returns (now : ℚ) {k : Key} (hk : IsText k) : Returns (discover now k) := by
  refine returns_read_bind (fun s => ?_)
  cases s.peers.get? k with
  | some p => exact returns_pure ()
  | none => exact returns_bind (returns_modify _) (fun _ => logKey_returns hk)

theorem suspectSilent_returns (now limit : ℚ) (ks : List Key) (hks : ∀ k ∈ ks, IsText k) :
    Returns (suspectSilent now limit ks) := by
  induction ks with
  | nil => exact returns_pure []
  | cons k ks ih =>
      have hrest := ih (fun k' hk' => hks k' (List.mem_cons_of_mem _ hk'))
      refine returns_read_bind (fun s => ?_)
      by_cases hk : s.silent now limit k = true
      · rw [if_pos hk]
        refine returns_bind (returns_modify _) (fun _ => ?_)
        refine returns_bind (logKey_returns (hks k (List.mem_cons_self ..))) (fun _ => ?_)
        exact returns_bind hrest (fun _ => returns_pure _)
      · rw [if_neg hk]
        exact hrest

/-- A heartbeat goes to every known peer that is not dead, unless an earlier
    key is not a string. -/
theorem heartbeat_reaches (s : MembershipLayer) (hs : Clean IsText s) (env : MemberEnv) (k : Key)
    (hk : s.knows k) (hdead : ¬ s.deadAt k) : (Outreach.heartbeat env).reaches s k := by
  have htext : ∀ k' ∈ s.getAlivePeers, IsText k' := fun k' hk' =>
    (hs k' ((mem_getAlivePeers s k').mp hk').1).1
  have hmem : k ∈ s.getAlivePeers := (mem_getAlivePeers s k).mpr ⟨hk, hdead⟩
  exact emits_each (f := fun k' => send k' _) s.getAlivePeers
    (fun k' hk' => send_returns (htext k' hk') _) hmem (send_emits (htext k hmem) _) s

/-- A topology sync sends a join to every connected key it does not know. -/
theorem sync_greets (s : MembershipLayer) (env : MemberEnv) (connectedKeys : List PyStr)
    (x : PyStr) (hx : x ∈ connectedKeys) (hne : x ≠ s.ourKey) (hnew : ¬ s.knows (.str x)) :
    ∃ o ∈ (axlSync env connectedKeys s).out,
      o.dest = .str x ∧ get o.msg (lit "type") = .str (lit "node_join") := by
  have htext := unknown_text s connectedKeys
  have hmem : .str x ∈ s.unknown connectedKeys :=
    (mem_unknown s connectedKeys _).mpr ⟨x, hx, rfl, hne, hnew⟩
  have hgreets : ∀ t, Emits
      (fun o => o.dest = .str x ∧ get o.msg (lit "type") = .str (lit "node_join"))
      (sendJoinTo env t (.str x)) := by
    intro t s'
    refine ⟨_, List.mem_singleton.mpr rfl, rfl, ?_⟩
    rw [PyVal.get, lookup_withEncPubkey _ _ _ (by decide)]
    rfl
  unfold axlSync
  rw [read_bind]
  refine emits_bind_right (R := fun o : Send => o.dest = .str x ∧
    get o.msg (lit "type") = .str (lit "node_join")) (returns_modify _) (fun _ => ?_) s
  refine emits_bind_right (returns_each _ (fun k hk => discover_returns env.now (htext k hk)))
    (fun _ => ?_)
  refine emits_bind_right (suspectSilent_returns _ _ _ (fun k hk => ?_)) (fun _ => ?_)
  · rcases List.mem_map.mp hk with ⟨y, _, hy⟩
    exact ⟨y, hy.symm⟩
  refine emits_bind_left (emits_each _ (fun k hk => ?_) hmem ?_)
  · exact returns_read_bind (fun t => send_returns (htext k hk) _)
  · exact hgreets 1

/-- A topology sync greets every connected key it does not know. -/
theorem sync_reaches (s : MembershipLayer) (env : MemberEnv) (connectedKeys : List PyStr)
    (x : PyStr) (hx : x ∈ connectedKeys) (hne : x ≠ s.ourKey) (hnew : ¬ s.knows (.str x)) :
    ∃ o ∈ (axlSync env connectedKeys s).out, o.dest = .str x := by
  rcases sync_greets s env connectedKeys x hx hne hnew with ⟨o, ho, hdest, _⟩
  exact ⟨o, ho, hdest⟩

/-- Some periodic action reaches a key exactly when it is not marked dead. -/
theorem exists_reaches_iff (s : MembershipLayer) (hs : Clean IsText s) (x : PyStr)
    (hx : x ≠ s.ourKey) (group : PyStr → Prop) (hgroup : group x) (keys : List PyStr)
    (hkeys : ∀ y, group y → y ∈ keys) :
    (∃ a : Outreach, a.covers group ∧ a.reaches s (.str x)) ↔ ¬ s.deadAt (.str x) := by
  constructor
  · rintro ⟨a, _, ha⟩
    exact not_dead_of_reaches s a (.str x) ha
  · intro hdead
    by_cases hknown : s.knows (.str x)
    · exact ⟨.heartbeat .plain, trivial, heartbeat_reaches s hs .plain _ hknown hdead⟩
    · exact ⟨.sync .plain keys, hkeys,
        sync_reaches s .plain keys x (hkeys x hgroup) hx hknown⟩

end WhisperNet
