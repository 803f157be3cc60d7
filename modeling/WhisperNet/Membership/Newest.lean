import WhisperNet.Cluster.Mesh
import WhisperNet.Membership.Exceptions

/-!
# Which Heartbeat a Table Remembers

A heartbeat carries the time it was made, and `_on_heartbeat` does not read it.
Whatever arrives last is what the table shows, so a heartbeat that was overtaken
on its way through the relays replaces the news of a later one.

A node hears heartbeats of one peer in some order, some of them more than once,
and other messages in between. What its table shows of the peer at the end is
told by the list of the heartbeats that the check for repetitions let through:
the last one counts, and for the lease duration the last one that has any.

## Main definitions

* `Heartbeat`: A heartbeat of a peer, with its message and what it advertises.
* `Heartbeat.copy`: The message after any number of relays.
* `Reception`: A heartbeat of the peer, another message, or an own operation.
* `hear`: The table after some receptions.
* `taken`: The heartbeats that are not dropped as repetitions.
* `Newest`: The heartbeat with the greatest timestamp.
* `Shows`: The table has what a heartbeat advertises.

## Theorems

* `broadcastHeartbeat_msg`, `decHops_copy`: What is sent, and what relays make
  of it.
* `heartbeat_remembered`: What one heartbeat leaves.
* `hear_remembers`: What a table shows after some receptions.
* `shows_newest_iff`: When that is what the newest heartbeat advertises.
* `Overtaken.forgets`: A heartbeat that was overtaken.
-/

namespace WhisperNet

open MembershipLayer WhisperNet.Action
open PyVal (get getD)

/-- A heartbeat: the layer it was made from, and what the broadcast read. -/
structure Heartbeat where
  origin : MembershipLayer
  env : MemberEnv

namespace Heartbeat

variable (h : Heartbeat)

/-- The message `_broadcast_heartbeat` builds. -/
def msg : Msg :=
  h.origin.withEncPubkey
    [(lit "type", .str (lit "heartbeat")),
     (lit "msg_id", .str (h.env.uuid (.str h.origin.ourKey))),
     (lit "from", .str h.origin.ourKey),
     (lit "timestamp", .float h.env.now),
     (lit "shard_id", .int h.origin.ourShardId),
     (lit "tasks_held", .list h.env.tasksHeld),
     (lit "known_peers",
       .list ((h.origin.keysWhere (fun p => p.status = .alive)).map Key.toVal)),
     (lit "hops", .int MembershipLayer.gossipHops),
     (lit "lease_duration", .float h.origin.ourLeaseDuration),
     (lit "capabilities", .list (h.origin.ourCapabilities.map PyVal.str)),
     (lit "price_axl", .float h.origin.ourPriceAxl)]

def msgId : PyVal := .str (h.env.uuid (.str h.origin.ourKey))

def timestamp : ℚ := h.env.now

/-- The tasks, the price and the capabilities. -/
def advert : PyVal × PyFloat × List PyVal :=
  (.list h.env.tasksHeld, .num h.origin.ourPriceAxl, h.origin.ourCapabilities.map PyVal.str)

def lease : ℚ := h.origin.ourLeaseDuration

/-- The message as it arrives with some hops left. -/
def copy (hops : Int) : Msg := assign (lit "hops") (.int hops) h.msg

end Heartbeat

/-- Every message of a broadcast is the heartbeat. -/
theorem broadcastHeartbeat_msg (env : MemberEnv) (s : MembershipLayer) :
    ∀ o ∈ (broadcastHeartbeat env s).out,
      o.msg = (Heartbeat.mk s env).copy MembershipLayer.gossipHops := by
  intro o ho
  have hsame : (Heartbeat.mk s env).copy MembershipLayer.gossipHops = (Heartbeat.mk s env).msg := by
    refine assign_same _ _ _ ?_
    unfold Heartbeat.msg
    rw [lookup_withEncPubkey _ _ _ (by decide)]
    rfl
  rw [hsame]
  exact ((sendAll_still _ _ s).2 o ho).1

theorem lookup_copy (h : Heartbeat) (hops : Int) {field : PyStr} (hh : field ≠ lit "hops")
    (he : field ≠ lit "enc_pubkey") :
    lookup field (h.copy hops) = lookup field ((⟨{ h.origin with ourEncPubkey := none }, h.env⟩ :
      Heartbeat).msg) := by
  unfold Heartbeat.copy Heartbeat.msg
  rw [lookup_assign_of_ne _ _ _ _ hh, lookup_withEncPubkey _ _ _ he,
    lookup_withEncPubkey _ _ _ he]
  rfl

/-- A relay makes of a copy a copy with fewer hops. -/
theorem decHops_copy (h : Heartbeat) (hops : Int) :
    decHops (h.copy hops) = .ok (if hops - 1 > 0 then some (h.copy (hops - 1)) else none) := by
  have hhops : getD (h.copy hops) (lit "hops") (.int 0) = .int hops := by
    unfold getD Heartbeat.copy
    rw [lookup_assign_self]
    rfl
  have hassign : assign (lit "hops") (.int (hops - 1)) (h.copy hops) = h.copy (hops - 1) :=
    assign_assign _ _ _ _
  unfold decHops
  rw [hhops]
  simp only [hassign]

/-! ## What a table has of a peer -/

/-- The tasks, the price and the capabilities of a record. -/
def PeerInfo.advert (p : PeerInfo) : PyVal × PyFloat × List PyVal :=
  (p.tasksHeld, p.priceAxl, p.capabilities)

namespace MembershipLayer

/-- What is recorded for a key, or what a new record would have. -/
def advertAt (s : MembershipLayer) (k : Key) : PyVal × PyFloat × List PyVal :=
  ((s.peers.get? k).getD { lastSeen := 0 }).advert

def leaseAt (s : MembershipLayer) (k : Key) : Option PyFloat :=
  (s.peers.get? k).bind PeerInfo.reportedLeaseDuration

theorem get?_updatePeer (k k' : Key) (f : PeerInfo → PeerInfo) (s : MembershipLayer) :
    (updatePeer k f s).peers.get? k' =
      if k' = k then (s.peers.get? k').map f else s.peers.get? k' := by
  unfold updatePeer
  cases hk : s.peers.get? k with
  | none =>
      by_cases hkk : k' = k
      · rw [if_pos hkk, hkk, hk]
        rfl
      · rw [if_neg hkk]
  | some p =>
      simp only [Dict.get?_set]
      by_cases hkk : k' = k
      · rw [if_pos hkk, if_pos hkk, hkk, hk]
        rfl
      · rw [if_neg hkk, if_neg hkk]

/-- Two tables show the same of a key. -/
def SameNews (k : Key) (s t : MembershipLayer) : Prop :=
  advertAt t k = advertAt s k ∧ leaseAt t k = leaseAt s k

theorem sameNews_updatePeer (k k' : Key) (f : PeerInfo → PeerInfo) (s : MembershipLayer)
    (hf : k' = k → ∀ p, (f p).advert = p.advert ∧
      (f p).reportedLeaseDuration = p.reportedLeaseDuration) :
    SameNews k' s (updatePeer k f s) := by
  unfold SameNews advertAt leaseAt
  rw [get?_updatePeer]
  by_cases hkk : k' = k
  · rw [if_pos hkk]
    cases s.peers.get? k' with
    | none => exact ⟨rfl, rfl⟩
    | some p => exact hf hkk p
  · rw [if_neg hkk]
    exact ⟨rfl, rfl⟩

/-- The only change that alters what a key shows is the one that advertises. -/
theorem sameNews_apply {own : PyStr} {s : MembershipLayer} {c : Change} (hg : c.guard own s)
    {k : Key} (hc : ∀ f, c ≠ .advertise k f) : SameNews k s (c.apply s) := by
  cases c with
  | insert now k' =>
      unfold SameNews advertAt leaseAt
      simp only [Change.apply, insertPeer, Dict.get?_set]
      by_cases hk : k = k'
      -- A new record has what the defaults are.
      · have hnone : s.peers.get? k = none := hk ▸ hg.1
        rw [if_pos hk, hnone]
        exact ⟨rfl, rfl⟩
      · rw [if_neg hk]
        exact ⟨rfl, rfl⟩
  | advertise k' f =>
      refine sameNews_updatePeer k' k f s (fun hk => ?_)
      rw [hk] at hc
      exact absurd rfl (hc f)
  | revive k' => exact sameNews_updatePeer k' k _ s (fun _ _ => ⟨rfl, rfl⟩)
  | suspect k' => exact sameNews_updatePeer k' k _ s (fun _ _ => ⟨rfl, rfl⟩)
  | condemn k' => exact sameNews_updatePeer k' k _ s (fun _ _ => ⟨rfl, rfl⟩)
  | openReports k' => exact ⟨rfl, rfl⟩
  | addReport k' r => exact ⟨rfl, rfl⟩
  | seen v => exact ⟨rfl, rfl⟩
  | connect ks => exact ⟨rfl, rfl⟩

theorem sameNews_of_changes {own : PyStr} {N : Key → Prop} {A : Change → Prop}
    {s t : MembershipLayer} (h : Changes own N A s t) {k : Key}
    (hA : ∀ f, ¬ A (.advertise k f)) : SameNews k s t := by
  induction h with
  | refl => exact ⟨rfl, rfl⟩
  | tail _ hlast ih =>
      rcases hlast with ⟨c, hc, _, hg, ht⟩
      have hlast := sameNews_apply hg (k := k) (fun f hcf => hA f (hcf ▸ hc))
      rw [ht]
      exact ⟨hlast.1.trans ih.1, hlast.2.trans ih.2⟩

/-- No other change notes an id. -/
theorem seenIds_of_changes {own : PyStr} {N : Key → Prop} {A : Change → Prop}
    {s t : MembershipLayer} (h : Changes own N A s t) (hA : ∀ v, ¬ A (.seen v)) :
    t.seenIds = s.seenIds := by
  induction h with
  | refl => rfl
  | tail _ hlast ih =>
      rcases hlast with ⟨c, hc, _, _, ht⟩
      rw [ht, ← ih]
      have hupdate : ∀ (u : MembershipLayer) k f, (updatePeer k f u).seenIds = u.seenIds := by
        intro u k f
        unfold updatePeer
        cases u.peers.get? k with
        | none => rfl
        | some p => rfl
      cases c with
      | advertise k f => exact hupdate _ k f
      | revive k => exact hupdate _ k _
      | suspect k => exact hupdate _ k _
      | condemn k => exact hupdate _ k _
      | insert now k => rfl
      | openReports k => rfl
      | addReport k r => rfl
      | seen v => exact absurd hc (hA v)
      | connect ks => rfl

end MembershipLayer

/-! ## Receptions -/

/-- What happens at a node that hears of a peer. -/
inductive Reception
  | heartbeat (env : MemberEnv) (fromPeer : PyVal) (h : Heartbeat) (hops : Int)
  | message (env : MemberEnv) (fromPeer : PyVal) (msg : Msg)
  | beat (b : Beat)

namespace Reception

def act : Reception → Act Unit
  | .heartbeat env fromPeer h hops => handleMessage env fromPeer (h.copy hops)
  | .message env fromPeer msg => handleMessage env fromPeer msg
  | .beat b => b.act

/-- The heartbeats are those of one peer, and no other message has news of it. -/
def concerns (key : PyStr) : Reception → Prop
  | .heartbeat _ _ h _ => h.origin.ourKey = key
  | .message _ _ msg => get msg (lit "type") = .str (lit "suspicion") ∨
      hashKey (get msg (lit "from")) ≠ .ok (.str key)
  | .beat _ => True

/-- The id of a message. -/
def msgId : Reception → PyVal
  | .heartbeat _ _ h _ => h.msgId
  | .message _ _ msg => get msg (lit "msg_id")
  | .beat _ => .none

def heard : Reception → Option Heartbeat
  | .heartbeat _ _ h _ => some h
  | _ => none

/-- The ids noted after a message. -/
def noted (w : Window 1000 PyVal) (msgId : PyVal) : Window 1000 PyVal :=
  if msgId.truthy && !pyIn msgId w.items then w.append msgId else w

/-- The table after some receptions. -/
def hear (s : MembershipLayer) (rs : List Reception) : MembershipLayer :=
  rs.foldl (fun s r => (r.act s).state) s

/-- The heartbeats whose id is not noted when they arrive. -/
def taken (w : Window 1000 PyVal) : List Reception → List Heartbeat
  | [] => []
  | r :: rs =>
    if r.msgId.truthy && !pyIn r.msgId w.items then
      r.heard.toList ++ taken (noted w r.msgId) rs
    else taken (noted w r.msgId) rs

/-- The heartbeat with the greatest timestamp among those received. -/
def Newest (rs : List Reception) (n : Heartbeat) : Prop :=
  n ∈ rs.filterMap Reception.heard ∧
    ∀ h ∈ rs.filterMap Reception.heard, h = n ∨ h.timestamp < n.timestamp

end Reception

/-- The record of a key has what a heartbeat advertises. -/
def Shows (s : MembershipLayer) (k : Key) (n : Heartbeat) : Prop :=
  ∃ p, s.peers.get? k = some p ∧ p.advert = n.advert ∧ p.reportedLeaseDuration = some (.num n.lease)

/-! ## One heartbeat -/

section OneHeartbeat

variable {h : Heartbeat} {hops : Int}

theorem get_copy {field : PyStr} (hh : field ≠ lit "hops") (he : field ≠ lit "enc_pubkey") :
    get (h.copy hops) field =
      get ((⟨{ h.origin with ourEncPubkey := none }, h.env⟩ : Heartbeat).msg) field := by
  unfold PyVal.get
  rw [lookup_copy h hops hh he]

/-- The encryption key is stored as it comes, and touches nothing else. -/
theorem encField_ok (msg : Msg) : ∃ g, encField msg = .ok g ∧ ∀ p, (g p).advert = p.advert ∧
    (g p).reportedLeaseDuration = p.reportedLeaseDuration := by
  by_cases hgiven : (get msg (lit "enc_pubkey")).truthy = true
  · exact ⟨_, if_pos hgiven, fun _ => ⟨rfl, rfl⟩⟩
  · exact ⟨id, if_neg hgiven, fun _ => ⟨rfl, rfl⟩⟩

theorem leaseField_copy : leaseField (h.copy hops) =
    .ok (fun p => if h.lease ≠ 0 then { p with reportedLeaseDuration := some (.num h.lease) }
      else p) := by
  have hlease : get (h.copy hops) (lit "lease_duration") = .float h.lease :=
    get_copy (by decide) (by decide)
  unfold leaseField field
  simp only [hlease, PyVal.truthy, pyFloat_float, Except.map]
  by_cases hz : h.lease = 0
  · simp only [hz, ne_eq, not_true, decide_false, if_false, Bool.false_eq_true]
    rfl
  · simp only [ne_eq, hz, not_false_eq_true, decide_true, if_true]

theorem capabilitiesField_copy : capabilitiesField (h.copy hops) =
    .ok (fun p => { p with capabilities := h.origin.ourCapabilities.map PyVal.str }) := by
  have hcaps : get (h.copy hops) (lit "capabilities") =
      .list (h.origin.ourCapabilities.map PyVal.str) := get_copy (by decide) (by decide)
  unfold capabilitiesField field
  simp only [hcaps, ne_eq, reduceCtorEq, not_false_eq_true, decide_true, if_true, pyList,
    Except.map]

theorem priceField_copy : priceField (h.copy hops) =
    .ok (fun p => { p with priceAxl := .num h.origin.ourPriceAxl }) := by
  have hprice : get (h.copy hops) (lit "price_axl") = .float h.origin.ourPriceAxl :=
    get_copy (by decide) (by decide)
  unfold priceField field
  simp only [hprice, ne_eq, reduceCtorEq, not_false_eq_true, decide_true, if_true, pyFloat_float,
    Except.map]

theorem shardField_copy : shardField (h.copy hops) =
    .ok (fun p => { p with shardId := some h.origin.ourShardId }) := by
  have hshard : get (h.copy hops) (lit "shard_id") = .int h.origin.ourShardId :=
    get_copy (by decide) (by decide)
  unfold shardField field
  simp only [hshard, ne_eq, reduceCtorEq, not_false_eq_true, decide_true, if_true, pyInt_int,
    Except.map]

theorem tasksField_copy : tasksField (h.copy hops) =
    .ok (fun p => { p with tasksHeld := .list h.env.tasksHeld }) := by
  have htasks : getD (h.copy hops) (lit "tasks_held") (.list []) = .list h.env.tasksHeld := by
    unfold getD
    rw [lookup_copy h hops (by decide) (by decide)]
    rfl
  unfold tasksField
  rw [htasks]

/-- Every field of a heartbeat converts, and the record has what it advertises. -/
theorem heartbeatFields_copy (h : Heartbeat) (hops : Int) (now : ℚ) :
    MembershipLayer.Readable (heartbeatFields now (h.copy hops)) ∧ ∀ p,
      (advertised (heartbeatFields now (h.copy hops)) p).advert = h.advert ∧
      (advertised (heartbeatFields now (h.copy hops)) p).reportedLeaseDuration =
        if h.lease ≠ 0 then some (.num h.lease) else p.reportedLeaseDuration := by
  rcases encField_ok (h.copy hops) with ⟨g, hg, hkeeps⟩
  unfold heartbeatFields
  rw [tasksField_copy, shardField_copy, hg, leaseField_copy, capabilitiesField_copy,
    priceField_copy]
  constructor
  · unfold MembershipLayer.Readable seenField
    simp only [List.forall_mem_cons, Except.ok.injEq, exists_eq', List.not_mem_nil, false_implies,
      implies_true, and_true]
  · intro p
    simp only [seenField, advertised]
    -- A lease duration of zero is not taken, and what was reported before stays.
    by_cases hz : h.lease ≠ 0
    · rw [if_pos hz, if_pos hz]
      refine ⟨?_, rfl⟩
      have hadvert := (hkeeps { p with
        lastSeen := now, tasksHeld := .list h.env.tasksHeld
        shardId := some h.origin.ourShardId }).1
      unfold PeerInfo.advert at hadvert ⊢
      unfold Heartbeat.advert
      rw [Prod.mk.injEq] at hadvert
      rw [hadvert.1]
    · rw [if_neg hz, if_neg hz]
      have hadvert := hkeeps { p with
        lastSeen := now, tasksHeld := .list h.env.tasksHeld
        shardId := some h.origin.ourShardId }
      refine ⟨?_, hadvert.2⟩
      unfold PeerInfo.advert at hadvert ⊢
      unfold Heartbeat.advert
      rw [Prod.mk.injEq] at hadvert
      rw [hadvert.1.1]

/-- Where all fields convert, what follows them runs on the table they leave. -/
theorem takeFields_state {k : Key} {rest : Act Unit} {fs : List Field}
    (hread : MembershipLayer.Readable fs) (s : MembershipLayer) :
    (takeFields k rest fs s).state = (rest (updatePeer k (advertised fs) s)).state := by
  induction fs generalizing s with
  | nil =>
      have hid : updatePeer k (advertised []) s = s := updatePeer_id k s
      rw [hid]
      rfl
  | cons f fs ih =>
      -- An update by one field, then by the rest, is one update by all of them.
      rcases hread f (List.mem_cons_self ..) with ⟨g, rfl⟩
      have hrun : (takeFields k rest (.ok g :: fs) s).state =
          (takeFields k rest fs (updatePeer k g s)).state := by
        change ((modify (updatePeer k g) >>= fun _ => takeFields k rest fs) s).state = _
        rw [modify_bind]
      rw [hrun, ih ((readable_cons_ok g fs).mp hread), updatePeer_updatePeer]
      rfl

/-- The end of a heartbeat leaves what the table shows of its sender. -/
theorem revive_absorb_sameNews (env : MemberEnv) (msg : Msg) {s : MembershipLayer} {k : Key}
    (hk : s.knows k) :
    SameNews k s ((revive k >>= fun _ => absorbKnown env msg) s).state := by
  -- The peers that the heartbeat names are new to the table, so not its sender.
  have habsorb : ∀ t, t.knows k → SameNews k t (absorbKnown env msg t).state := by
    intro t ht
    rcases (knows_iff t k).mp ht with ⟨p, hp⟩
    have hafter := (absorbKnown_records env msg t).1 k p hp
    unfold SameNews advertAt leaseAt
    rw [hafter, hp]
    exact ⟨rfl, rfl⟩
  have hrevived : SameNews k s (revive k s).state ∧ (revive k s).state.knows k := by
    constructor
    · have hwithin : Within (memberFrame s.ourKey (fun _ => True) (fun c => c = .revive k))
          (revive k) := revive_within k rfl
      have hchanges := (hwithin s).1 rfl
      exact sameNews_of_changes hchanges (fun f hf => absurd hf (by
        simp only [reduceCtorEq, not_false_eq_true]))
    · rcases (knows_iff s k).mp hk with ⟨p, hp⟩
      unfold revive
      rw [read_bind, hp]
      by_cases hother : p.status ≠ .alive
      · simp only [if_pos hother]
        rw [modify_bind]
        have hlog : ∀ t, (logKey k t).state = t := by
          intro t
          cases k with
          | str x => rfl
          | none => rfl
          | num q => rfl
        rw [hlog]
        exact (knows_iff _ k).mpr ⟨_, updatePeer_get? hp _⟩
      · simp only [if_neg hother]
        exact hk
  -- The log may raise, and then the peers it names are not read.
  cases hret : (revive k s).ret with
  | error e =>
      rw [bind_error hret]
      exact hrevived.1
  | ok u =>
      rw [bind_ok hret]
      have hrest := habsorb _ hrevived.2
      exact ⟨hrest.1.trans hrevived.1.1, hrest.2.trans hrevived.1.2⟩

/-- A heartbeat of another node leaves what it advertises, and the lease
    duration that was there if it has none. -/
theorem heartbeat_remembered (h : Heartbeat) (hops : Int) (env : MemberEnv)
    {s : MembershipLayer} {key : PyStr} (horigin : h.origin.ourKey = key) (hkey : key ≠ [])
    (hne : key ≠ s.ourKey) :
    advertAt (onHeartbeat env (h.copy hops) s).state (.str key) = h.advert ∧
      leaseAt (onHeartbeat env (h.copy hops) s).state (.str key) =
        if h.lease ≠ 0 then some (.num h.lease) else leaseAt s (.str key) := by
  have hsender : get (h.copy hops) (lit "from") = .str key := by
    rw [get_copy (by decide) (by decide), ← horigin]
    rfl
  have hfrom : From s (h.copy hops) (.str key) := by
    unfold From
    rw [hsender]
    refine ⟨?_, rfl⟩
    have htruthy : (PyVal.str key).truthy = true := decide_eq_true hkey
    have hother : pyEq (.str key) (.str s.ourKey) = false := by
      rw [← Bool.not_eq_true, pyEq_str, PyVal.str.injEq]
      exact hne
    rw [htruthy, hother]
    rfl
  rcases heartbeatFields_copy h hops env.now with ⟨hread, hadvert⟩
  -- The sender is in the table when its fields are stored, with the record it had or a new one.
  have hentered : ∃ t p, discover env.now (.str key) s = ⟨.ok (), t, []⟩ ∧
      t.peers.get? (.str key) = some p ∧ leaseAt s (.str key) = p.reportedLeaseDuration := by
    unfold discover leaseAt
    rw [read_bind]
    cases hp : s.peers.get? (.str key) with
    | some p => exact ⟨s, p, rfl, hp, rfl⟩
    | none => exact ⟨insertPeer env.now (.str key) s, _, rfl, Dict.get?_set_self _ _ _, rfl⟩
  rcases hentered with ⟨t, p, hrun, hp, hlease⟩
  have hstored := updatePeer_get? hp (advertised (heartbeatFields env.now (h.copy hops)))
  rw [onHeartbeat_run env hfrom, bind_ok (by rw [hrun]) _, hrun]
  simp only []
  rw [takeFields_state hread]
  have hrest := revive_absorb_sameNews env (h.copy hops)
    ((knows_iff _ (.str key)).mpr ⟨_, hstored⟩)
  rw [hrest.1, hrest.2, hlease]
  unfold advertAt leaseAt
  rw [hstored]
  exact hadvert p

end OneHeartbeat

/-! ## Every reception -/

/-- A message that is not dropped has its id noted, whatever becomes of it. -/
theorem handleMessage_noted (env : MemberEnv) (fromPeer : PyVal) (msg : Msg)
    (s : MembershipLayer) :
    (handleMessage env fromPeer msg s).state.seenIds =
      Reception.noted s.seenIds (get msg (lit "msg_id")) ∧
    (handleMessage env fromPeer msg s).state.ourKey = s.ourKey := by
  have hmsg : NamesOnly (fun _ => True) msg := fun _ _ => trivial
  refine ⟨?_, ourKey_of_changes ((handleMessage_within env fromPeer msg hmsg s).1 rfl)⟩
  unfold handleMessage Reception.noted
  rw [read_bind]
  by_cases hnew : ((get msg (lit "msg_id")).truthy
      && !pyIn (get msg (lit "msg_id")) s.seenIds.items) = true
  · rw [if_pos hnew, if_pos hnew, modify_bind]
    -- No handler notes another id.
    have hmarked : (markSeen (get msg (lit "msg_id")) s).seenIds =
        s.seenIds.append (get msg (lit "msg_id")) := rfl
    rw [← hmarked]
    split
    · exact seenIds_of_changes ((onHeartbeat_within env msg hmsg _).1 rfl) (fun _ h => h)
    · split
      · exact seenIds_of_changes ((onSuspicion_within env fromPeer msg hmsg _).1 rfl)
          (fun _ h => h)
      · split
        · exact seenIds_of_changes ((onNodeJoin_within env msg hmsg _).1 rfl) (fun _ h => h)
        · rfl
  · rw [if_neg hnew, if_neg hnew]
    rfl

/-- A node's own operations change nothing that a peer advertises. -/
theorem beat_sameNews (b : Beat) (k : Key) (s : MembershipLayer) :
    SameNews k s (b.act s).state ∧ (b.act s).state.seenIds = s.seenIds ∧
      (b.act s).state.ourKey = s.ourKey := by
  -- What an operation may change is in its frame, so none is run here.
  have hkept : ∀ A : Change → Prop, (∀ f, ¬ A (.advertise k f)) → (∀ v, ¬ A (.seen v)) →
      Within (memberFrame s.ourKey (fun _ => True) A) b.act →
      SameNews k s (b.act s).state ∧ (b.act s).state.seenIds = s.seenIds ∧
        (b.act s).state.ourKey = s.ourKey := by
    intro A hadvertise hseen hwithin
    have hchanges := (hwithin s).1 rfl
    exact ⟨sameNews_of_changes hchanges hadvertise, seenIds_of_changes hchanges hseen,
      ourKey_of_changes hchanges⟩
  cases b with
  | seed now peerKey =>
      exact hkept (fun c => c = .insert now (.str peerKey))
        (fun f hf => absurd hf (by simp only [reduceCtorEq, not_false_eq_true]))
        (fun v hv => absurd hv (by simp only [reduceCtorEq, not_false_eq_true]))
        (addPeer_within now peerKey trivial rfl)
  | join env =>
      exact hkept (fun _ => False) (fun _ hf => hf) (fun _ hv => hv)
        (broadcastJoin_within env trivial)
  | heartbeat env =>
      exact hkept (fun _ => False) (fun _ hf => hf) (fun _ hv => hv)
        (broadcastHeartbeat_within env trivial)
  | detect env =>
      exact hkept ByTick (fun _ hf => hf) (fun _ hv => hv) (detectFailures_within env trivial)
  | sync env connectedKeys =>
      exact hkept (BySync connectedKeys) (fun _ hf => hf) (fun _ hv => hv)
        (axlSync_within env connectedKeys trivial (fun _ _ => trivial))

/-- A message without news of a key. -/
theorem message_sameNews (env : MemberEnv) (fromPeer : PyVal) {msg : Msg} {k : Key}
    (hmsg : get msg (lit "type") = .str (lit "suspicion") ∨ hashKey (get msg (lit "from")) ≠ .ok k)
    (s : MembershipLayer) : SameNews k s (handleMessage env fromPeer msg s).state := by
  have hnames : NamesOnly (fun _ => True) msg := fun _ _ => trivial
  refine sameNews_of_changes ((handleMessage_within env fromPeer msg hnames s).1 rfl) ?_
  rintro f (hseen | ⟨_, hreport⟩ | ⟨htype, hnews⟩)
  · exact absurd hseen (by simp only [reduceCtorEq, not_false_eq_true])
  · exact hreport
  · exact hmsg.elim htype (fun hfrom => hfrom hnews)

/-- A copy of a heartbeat goes to its handler, unless it is a repetition. -/
theorem handleMessage_copy (env : MemberEnv) (fromPeer : PyVal) (h : Heartbeat) (hops : Int)
    (s : MembershipLayer) :
    (handleMessage env fromPeer (h.copy hops) s).state =
      if h.msgId.truthy && !pyIn h.msgId s.seenIds.items then
        (onHeartbeat env (h.copy hops) (markSeen h.msgId s)).state
      else s := by
  have hid : get (h.copy hops) (lit "msg_id") = h.msgId := get_copy (by decide) (by decide)
  have htype : pyEq (get (h.copy hops) (lit "type")) (.str (lit "heartbeat")) = true := by
    rw [pyEq_str, get_copy (by decide) (by decide)]
    rfl
  unfold handleMessage
  rw [read_bind, hid]
  by_cases hnew : (h.msgId.truthy && !pyIn h.msgId s.seenIds.items) = true
  · rw [if_pos hnew, if_pos hnew, modify_bind, if_pos htype]
  · rw [if_neg hnew, if_neg hnew]
    rfl

namespace Reception

/-- What one reception leaves: the id is noted, and the news of a heartbeat that
    is no repetition is stored. -/
theorem act_remembers (r : Reception) {key : PyStr} (hr : r.concerns key) {s : MembershipLayer}
    (hkey : key ≠ []) (hne : key ≠ s.ourKey) :
    (r.act s).state.ourKey = s.ourKey ∧ (r.act s).state.seenIds = noted s.seenIds r.msgId ∧
      advertAt (r.act s).state (.str key) =
        ((taken s.seenIds [r]).getLast?.map Heartbeat.advert).getD (advertAt s (.str key)) ∧
      leaseAt (r.act s).state (.str key) =
        (((taken s.seenIds [r]).filter (fun h => h.lease ≠ 0)).getLast?.map
          (fun h => PyFloat.num h.lease)).or
          (leaseAt s (.str key)) := by
  -- A heartbeat leaves what it carries, and any other message what was there.
  cases r with
  | heartbeat env fromPeer h hops =>
      have hnoted := handleMessage_noted env fromPeer (h.copy hops) s
      rw [get_copy (by decide) (by decide)] at hnoted
      refine ⟨hnoted.2, hnoted.1, ?_⟩
      unfold act
      rw [handleMessage_copy]
      by_cases hnew : (h.msgId.truthy && !pyIn h.msgId s.seenIds.items) = true
      · have htaken : taken s.seenIds [.heartbeat env fromPeer h hops] = [h] := if_pos hnew
        have hstored := heartbeat_remembered h hops env
          (s := markSeen h.msgId s) hr hkey hne
        rw [if_pos hnew, htaken, hstored.1, hstored.2]
        refine ⟨rfl, ?_⟩
        by_cases hz : h.lease ≠ 0
        · have hfilter : [h].filter (fun h => h.lease ≠ 0) = [h] := by
            simp only [List.filter_cons, List.filter_nil, hz, not_false_eq_true, decide_true,
              if_true, ne_eq]
          rw [if_pos hz, hfilter]
          rfl
        · have hfilter : [h].filter (fun h => h.lease ≠ 0) = [] := by
            simp only [List.filter_cons, List.filter_nil, hz, decide_false, Bool.false_eq_true,
              if_false]
          rw [if_neg hz, hfilter]
          rfl
      · have htaken : taken s.seenIds [.heartbeat env fromPeer h hops] = [] := if_neg hnew
        rw [if_neg hnew, htaken]
        exact ⟨rfl, rfl⟩
  | message env fromPeer msg =>
      have hnoted := handleMessage_noted env fromPeer msg s
      have hsame := message_sameNews env fromPeer hr s
      have hnone : taken s.seenIds [.message env fromPeer msg] = [] := by
        simp only [taken, heard, Option.toList_none, List.append_nil, ite_self]
      rw [hnone]
      exact ⟨hnoted.2, hnoted.1, hsame.1, hsame.2⟩
  | beat b =>
      have hsame := beat_sameNews b (.str key) s
      have hnone : taken s.seenIds [.beat b] = [] := by
        simp only [taken, heard, Option.toList_none, List.append_nil, ite_self]
      rw [hnone]
      exact ⟨hsame.2.2, hsame.2.1, hsame.1.1, hsame.1.2⟩

theorem taken_cons (w : Window 1000 PyVal) (r : Reception) (rs : List Reception) :
    taken w (r :: rs) = taken w [r] ++ taken (noted w r.msgId) rs := by
  simp only [taken, List.append_nil]
  split
  · rfl
  · rfl

end Reception

open Reception

/-- The last heartbeat that is no repetition tells what the table shows, and the
    last one with a lease duration tells that. -/
theorem hear_remembers (rs : List Reception) {key : PyStr} (hrs : ∀ r ∈ rs, r.concerns key)
    {s : MembershipLayer} (hkey : key ≠ []) (hne : key ≠ s.ourKey) :
    advertAt (hear s rs) (.str key) =
        ((taken s.seenIds rs).getLast?.map Heartbeat.advert).getD (advertAt s (.str key)) ∧
      leaseAt (hear s rs) (.str key) =
        (((taken s.seenIds rs).filter (fun h => h.lease ≠ 0)).getLast?.map
          (fun h => PyFloat.num h.lease)).or
          (leaseAt s (.str key)) := by
  induction rs generalizing s with
  | nil => exact ⟨rfl, rfl⟩
  | cons r rs ih =>
      -- One reception says what is noted and shown, the rest starts from there.
      rcases act_remembers r (hrs r (List.mem_cons_self ..)) hkey hne with
        ⟨hown, hseen, hadvert, hlease⟩
      have hrest := ih (fun r' hr' => hrs r' (List.mem_cons_of_mem _ hr'))
        (s := (r.act s).state) (by rw [hown]; exact hne)
      have hrun : hear s (r :: rs) = hear (r.act s).state rs := rfl
      rw [hrun, hrest.1, hrest.2, hadvert, hlease, hseen, taken_cons s.seenIds r rs,
        List.filter_append,
        List.getLast?_append, List.getLast?_append]
      constructor
      · cases (taken (Reception.noted s.seenIds r.msgId) rs).getLast? with
        | none => rfl
        | some h => rfl
      · cases ((taken (Reception.noted s.seenIds r.msgId) rs).filter
            (fun h => h.lease ≠ 0)).getLast? with
        | none => rfl
        | some h => rfl

/-- The table shows what the newest heartbeat advertises if and only if the last
    one that is no repetition says the same, and the last of those with a lease
    duration has the same one. -/
theorem shows_newest_iff (s : MembershipLayer) (key : PyStr) (rs : List Reception)
    (hkey : key ≠ []) (hne : key ≠ s.ourKey) (hrs : ∀ r ∈ rs, r.concerns key) :
    (∀ n, Reception.Newest rs n → Shows (hear s rs) (.str key) n) ↔
      ∀ n, Reception.Newest rs n →
        ((taken s.seenIds rs).getLast?.map Heartbeat.advert).getD (advertAt s (.str key)) =
          n.advert ∧
        (((taken s.seenIds rs).filter (fun h => h.lease ≠ 0)).getLast?.map
          (fun h => PyFloat.num h.lease)).or
          (leaseAt s (.str key)) = some (.num n.lease) := by
  rcases hear_remembers rs hrs hkey hne with ⟨hadvert, hlease⟩
  refine forall_congr' (fun n => imp_congr_right (fun _ => ?_))
  rw [← hadvert, ← hlease]
  unfold Shows advertAt leaseAt
  cases (hear s rs).peers.get? (.str key) with
  | none =>
      simp only [reduceCtorEq, false_and, exists_false, Option.bind_none, and_false]
  | some p => simp only [Option.some.injEq, exists_eq_left', Option.getD_some, Option.bind_some]

/-! ## A heartbeat that was overtaken -/

namespace Overtaken

def receiver : MembershipLayer := { ourKey := lit "n" }

/-- A heartbeat of the node `a`, with its id, its time and the tasks it holds. -/
def heartbeat (id : String) (now : ℚ) (tasks : List PyVal) : Heartbeat where
  origin := { ourKey := lit "a" }
  env := { MemberEnv.plain with now := now, uuid := fun _ => lit id, tasksHeld := tasks }

def older : Heartbeat := heartbeat "h1" 10 [.str (lit "t1")]

def newer : Heartbeat := heartbeat "h2" 20 []

def arrival (h : Heartbeat) (hops : Int) : Reception := .heartbeat MemberEnv.plain .none h hops

/-- The newer one comes directly, the older one by way of a relay. -/
def crossed : List Reception := [arrival newer 8, arrival older 7]

def inOrder : List Reception := [arrival older 8, arrival newer 8]

theorem older_ne_newer : older ≠ newer := by
  intro h
  have htime : older.timestamp = newer.timestamp := by rw [h]
  exact absurd htime (by decide +kernel)

theorem newest_iff {rs : List Reception}
    (hrs : rs.filterMap Reception.heard = [newer, older] ∨
      rs.filterMap Reception.heard = [older, newer]) (n : Heartbeat) :
    Reception.Newest rs n ↔ n = newer := by
  have htime : older.timestamp < newer.timestamp := by decide +kernel
  have hmem : ∀ h, h ∈ rs.filterMap Reception.heard ↔ h = newer ∨ h = older := by
    intro h
    rcases hrs with hrs | hrs
    · rw [hrs, List.mem_cons, List.mem_singleton]
    · rw [hrs, List.mem_cons, List.mem_singleton, or_comm]
  unfold Reception.Newest
  simp only [hmem]
  constructor
  · -- Were the older one the newest, it would have the later time.
    rintro ⟨hn | hn, hlast⟩
    · exact hn
    · rw [hn] at hlast
      rcases hlast newer (Or.inl rfl) with h | h
      · exact absurd h.symm older_ne_newer
      · exact absurd (lt_trans htime h) (lt_irrefl _)
  · rintro rfl
    refine ⟨Or.inl rfl, ?_⟩
    rintro h (rfl | rfl)
    · exact Or.inl rfl
    · exact Or.inr htime

/-- The table shows the tasks of the older heartbeat, which came last. -/
theorem forgets : advertAt (hear receiver crossed) (.str (lit "a")) = older.advert ∧
    ¬ ∀ n, Reception.Newest crossed n → Shows (hear receiver crossed) (.str (lit "a")) n := by
  have hshown : advertAt (hear receiver crossed) (.str (lit "a")) = older.advert := by
    decide +kernel
  refine ⟨hshown, fun hall => ?_⟩
  rcases hall newer ((newest_iff (Or.inl rfl) newer).mpr rfl) with ⟨p, hp, hadvert, _⟩
  unfold advertAt at hshown
  rw [hp, Option.getD_some, hadvert] at hshown
  exact absurd hshown (by decide +kernel)

/-- Received in the order they were made, the newer one is what the table shows. -/
theorem shows_newer : Shows (hear receiver inOrder) (.str (lit "a")) newer := by
  refine (shows_newest_iff receiver (lit "a") inOrder (by decide) (by decide) ?_).mpr ?_ newer
    ((newest_iff (Or.inr rfl) newer).mpr rfl)
  · intro r hr
    rcases List.mem_cons.mp hr with rfl | hr
    · rfl
    · rw [List.mem_singleton.mp hr]
      rfl
  · intro n hn
    rw [(newest_iff (Or.inr rfl) n).mp hn]
    decide +kernel

end Overtaken

end WhisperNet
