import Mathlib.Logic.Relation
import WhisperNet.Membership.Handlers

/-!
# What a Membership Call Does

Every operation changes the table by a sequence of atomic changes, and there
are nine kinds of those. A frame says which changes an operation may make and
what it may send, and each operation is shown to stay in its frame, once.
Everything else about membership over runs follows from the nine changes: what
each does to the status of a key, and that none inserts the node's own key.

`Names` lists the keys a message can bring into a table. A handler inserts no
others, and a node that receives only messages naming known keys sends only
such messages.

The one change that marks a peer dead is `condemn`, and `onSuspicion_statusAt`
says exactly when a suspicion makes it.

## Main definitions

* `Change`: An atomic change of the table.
* `Names`: The keys a message names.
* `Clean`: A table with known keys only, the node's own not among them.
* `memberFrame`: Allowed changes, and messages that name known keys.
* `ByNews`, `ByReport`, `ByMessage`, `BySync`, `ByTick`: The changes of each
  operation.

## Theorems

* `statusAt_apply`: What each change does to the status of a key.
* `config_of_changes`: Changes keep the configuration.
* `clean_of_changes`: Changes keep a clean table clean.
* `not_dead_of_changes`: Only a condemnation marks a peer dead.
* `dead_after_apply`, `dead_of_changes`: Only a revival takes the mark off.
* `handleMessage_within`, `axlSync_within`, `addPeer_within`,
  `broadcastHeartbeat_within`, `detectFailures_within`,
  `broadcastJoin_within`: Each operation stays in its frame.
* `onSuspicion_statusAt`: The statuses after a suspicion.
* `condemns_some`: What has been checked when a suspicion condemns a peer.
* `handleMessage_confirms`, `handleMessage_not_dead`: Exactly which keys a
  message leaves dead.
-/

namespace WhisperNet

open MembershipLayer WhisperNet.Action
open PyVal (get getD)

/-! ## Atomic changes -/

/-- An atomic change of the table. -/
inductive Change
  | insert (now : ℚ) (k : Key)
  | advertise (k : Key) (f : PeerInfo → PeerInfo)
  | revive (k : Key)
  | suspect (k : Key)
  | openReports (k : Key)
  | addReport (k reporter : Key)
  | condemn (k : Key)
  | seen (msgId : PyVal)
  | connect (keys : List PyStr)

namespace Change

def apply : Change → MembershipLayer → MembershipLayer
  | .insert now k => insertPeer now k
  | .advertise k f => updatePeer k f
  | .revive k => fun s => popSuspicions k (setStatus .alive k s)
  | .suspect k => setStatus .suspected k
  | .openReports k => MembershipLayer.openReports k
  | .addReport k r => MembershipLayer.addReport k r
  | .condemn k => setStatus .dead k
  | .seen v => markSeen v
  | .connect ks => MembershipLayer.connect ks

/-- What the code has checked before a change. -/
def guard (own : PyStr) (s : MembershipLayer) : Change → Prop
  | .insert _ k => s.peers.get? k = none ∧ k ≠ .str own
  | .advertise _ f => ∀ p, (f p).status = p.status
  | .openReports k | .addReport k _ => k ≠ .str own
  | .suspect k => s.aliveAt k
  | .condemn k => s.condemned k = true
  | _ => True

/-- The key a change brings into the table. -/
def inserts : Change → Option Key
  | .insert _ k => some k
  | _ => none

end Change

theorem statusAt_updatePeer (s : MembershipLayer) (k k' : Key) (f : PeerInfo → PeerInfo) :
    (updatePeer k f s).statusAt k' =
      if k' = k then (s.peers.get? k).map (fun p => (f p).status) else s.statusAt k' := by
  unfold updatePeer
  cases hk : s.peers.get? k with
  | none =>
      by_cases hkk : k' = k
      · rw [if_pos hkk, hkk, statusAt, hk]
        rfl
      · rw [if_neg hkk]
  | some p =>
      unfold statusAt
      rw [Dict.get?_set]
      by_cases hkk : k' = k
      · rw [if_pos hkk, if_pos hkk]
        rfl
      · rw [if_neg hkk, if_neg hkk]

/-- The status of `k'` once that of `k` is set to `st`. -/
def statusMoved (s : MembershipLayer) (st : PeerStatus) (k k' : Key) : Option PeerStatus :=
  if k' = k then (s.statusAt k').map (fun _ => st) else s.statusAt k'

theorem statusMoved_eq_none (s : MembershipLayer) (st : PeerStatus) (k k' : Key) :
    statusMoved s st k k' = none ↔ s.statusAt k' = none := by
  unfold statusMoved
  by_cases hk : k' = k
  · rw [if_pos hk, Option.map_eq_none_iff]
  · rw [if_neg hk]

theorem statusMoved_eq_some {s : MembershipLayer} {st st' : PeerStatus} {k k' : Key}
    (h : statusMoved s st k k' = some st') : s.statusAt k' = some st' ∨ k' = k ∧ st' = st := by
  unfold statusMoved at h
  by_cases hk : k' = k
  · rw [if_pos hk, Option.map_eq_some_iff] at h
    rcases h with ⟨_, _, hst⟩
    exact Or.inr ⟨hk, hst.symm⟩
  · rw [if_neg hk] at h
    exact Or.inl h

/-- Of the keys known, one is dead after a mark if it was or is the one marked. -/
theorem statusMoved_dead_iff {s : MembershipLayer} {k k' : Key} (hknown : s.knows k) :
    statusMoved s .dead k k' = some .dead ↔ s.statusAt k' = some .dead ∨ k' = k := by
  constructor
  · intro h
    rcases statusMoved_eq_some h with hs | ⟨hk, _⟩
    · exact Or.inl hs
    · exact Or.inr hk
  · intro h
    unfold statusMoved
    by_cases hk : k' = k
    · rcases (knows_iff s k).mp hknown with ⟨p, hp⟩
      rw [if_pos hk, hk, statusAt, hp]
      rfl
    · rw [if_neg hk]
      exact h.resolve_right hk

theorem statusAt_setStatus (st : PeerStatus) (s : MembershipLayer) (k k' : Key) :
    (setStatus st k s).statusAt k' = statusMoved s st k k' := by
  unfold setStatus statusMoved
  rw [statusAt_updatePeer]
  by_cases hk : k' = k
  · rw [if_pos hk, if_pos hk, hk]
    unfold statusAt
    rw [Option.map_map]
    rfl
  · rw [if_neg hk, if_neg hk]

/-- What each change does to the status of a key. -/
def Change.statusAfter (s : MembershipLayer) (k' : Key) : Change → Option PeerStatus
  | .insert _ k => if k' = k then some .alive else s.statusAt k'
  | .revive k => statusMoved s .alive k k'
  | .suspect k => statusMoved s .suspected k k'
  | .condemn k => statusMoved s .dead k k'
  | _ => s.statusAt k'

theorem statusAt_apply (own : PyStr) (s : MembershipLayer) (c : Change) (hg : c.guard own s)
    (k' : Key) : (c.apply s).statusAt k' = c.statusAfter s k' := by
  cases c with
  | insert now k =>
      simp only [Change.apply, Change.statusAfter, insertPeer, statusAt, Dict.get?_set]
      by_cases hk : k' = k
      · rw [if_pos hk, if_pos hk]
        rfl
      · rw [if_neg hk, if_neg hk]
  | advertise k f =>
      simp only [Change.apply, Change.statusAfter]
      rw [statusAt_updatePeer]
      by_cases hk : k' = k
      · rw [if_pos hk, hk, statusAt]
        exact congrArg (fun g => Option.map g (s.peers.get? k)) (funext hg)
      · rw [if_neg hk]
  | revive k => exact statusAt_setStatus .alive s k k'
  | suspect k => exact statusAt_setStatus .suspected s k k'
  | condemn k => exact statusAt_setStatus .dead s k k'
  | openReports k => rfl
  | addReport k r => rfl
  | seen v => rfl
  | connect ks => rfl

/-- A key is known after a change if it was before or the change inserts it. -/
theorem knows_apply {own : PyStr} {s : MembershipLayer} {c : Change} (hg : c.guard own s)
    {k : Key} (hk : (c.apply s).knows k) : s.knows k ∨ c.inserts = some k := by
  unfold MembershipLayer.knows at hk ⊢
  rw [statusAt_apply own s c hg k] at hk
  cases c with
  | insert now k' =>
      by_cases hkk : k = k'
      · right
        rw [hkk]
        rfl
      · left
        simpa only [Change.statusAfter, if_neg hkk] using hk
  | revive k' => exact Or.inl (fun hn => hk ((statusMoved_eq_none s _ k' k).mpr hn))
  | suspect k' => exact Or.inl (fun hn => hk ((statusMoved_eq_none s _ k' k).mpr hn))
  | condemn k' => exact Or.inl (fun hn => hk ((statusMoved_eq_none s _ k' k).mpr hn))
  | advertise k' f => exact Or.inl hk
  | openReports k' => exact Or.inl hk
  | addReport k' r => exact Or.inl hk
  | seen v => exact Or.inl hk
  | connect ks => exact Or.inl hk

/-- A key is dead after a change if it was before or the change condemns it. -/
theorem deadAt_apply {own : PyStr} {s : MembershipLayer} {c : Change} (hg : c.guard own s)
    {k : Key} (hk : (c.apply s).deadAt k) : s.deadAt k ∨ c = .condemn k := by
  unfold MembershipLayer.deadAt at hk ⊢
  rw [statusAt_apply own s c hg k] at hk
  cases c with
  | insert now k' =>
      by_cases hkk : k = k'
      · rw [Change.statusAfter, if_pos hkk] at hk
        exact (nomatch hk)
      · left
        simpa only [Change.statusAfter, if_neg hkk] using hk
  | revive k' =>
      rcases statusMoved_eq_some hk with hs | ⟨_, hst⟩
      · exact Or.inl hs
      · exact (nomatch hst)
  | suspect k' =>
      rcases statusMoved_eq_some hk with hs | ⟨_, hst⟩
      · exact Or.inl hs
      · exact (nomatch hst)
  | condemn k' =>
      rcases statusMoved_eq_some hk with hs | ⟨hkk, _⟩
      · exact Or.inl hs
      · right
        rw [hkk]
  | advertise k' f => exact Or.inl hk
  | openReports k' => exact Or.inl hk
  | addReport k' r => exact Or.inl hk
  | seen v => exact Or.inl hk
  | connect ks => exact Or.inl hk

/-- The part of a layer that is fixed when the process starts. -/
def config (s : MembershipLayer) : PyStr × Int × Int × ℚ :=
  (s.ourKey, s.ourShardId, s.clusterSize, s.suspectAfter)

theorem config_apply (s : MembershipLayer) (c : Change) : config (c.apply s) = config s := by
  have hupdate : ∀ k f, config (updatePeer k f s) = config s := by
    intro k f
    unfold updatePeer
    cases s.peers.get? k with
    | none => rfl
    | some p => rfl
  cases c with
  | advertise k f => exact hupdate k f
  | revive k => exact hupdate k _
  | suspect k => exact hupdate k _
  | condemn k => exact hupdate k _
  | insert now k => rfl
  | openReports k => rfl
  | addReport k r => rfl
  | seen v => rfl
  | connect ks => rfl

/-! ## Frames -/

/-- The keys a message can bring into a table. -/
def Names (msg : Msg) (k : Key) : Prop :=
  hashKey (get msg (lit "from")) = .ok k ∨
    ∃ ps, pyList (getD msg (lit "known_peers") (.list [])) = .ok ps ∧ ∃ p ∈ ps, hashKey p = .ok k

/-- A message that names known keys only. -/
def NamesOnly (N : Key → Prop) (msg : Msg) : Prop := ∀ k, Names msg k → N k

/-- One allowed change at a node with this key. -/
def Changed (own : PyStr) (N : Key → Prop) (A : Change → Prop) (s t : MembershipLayer) : Prop :=
  ∃ c, A c ∧ (∀ k, c.inserts = some k → N k) ∧ c.guard own s ∧ t = c.apply s

/-- Any number of allowed changes. -/
def Changes (own : PyStr) (N : Key → Prop) (A : Change → Prop) :
    MembershipLayer → MembershipLayer → Prop := Relation.ReflTransGen (Changed own N A)

/-- A table with known keys only, the node's own not among them. -/
def Clean (N : Key → Prop) (s : MembershipLayer) : Prop :=
  ∀ k, s.knows k → N k ∧ k ≠ .str s.ourKey

theorem clean_fresh (N : Key → Prop) (s : MembershipLayer) : Clean N s.fresh :=
  fun _ hk => (hk rfl).elim

section Changes

variable {own : PyStr} {N : Key → Prop} {A : Change → Prop}

theorem clean_of_changed {s t : MembershipLayer} (h : Changed own N A s t)
    (hown : s.ourKey = own) (hs : Clean N s) : Clean N t := by
  rcases h with ⟨c, -, hN, hg, ht⟩
  intro k hk
  have hkey : t.ourKey = own := by rw [ht, ← hown]; exact congrArg Prod.fst (config_apply s c)
  rw [hkey]
  rw [ht] at hk
  rcases knows_apply hg hk with hold | hnew
  · rw [← hown]
    exact hs k hold
  · refine ⟨hN k hnew, ?_⟩
    cases c with
    | insert now k' =>
        rw [← Option.some.inj hnew]
        exact hg.2
    | _ => exact (nomatch hnew)

theorem config_of_changes {s t : MembershipLayer} (h : Changes own N A s t) :
    config t = config s := by
  induction h with
  | refl => rfl
  | tail _ hlast ih =>
      rcases hlast with ⟨c, -, -, -, ht⟩
      rw [ht, config_apply, ih]

theorem ourKey_of_changes {s t : MembershipLayer} (h : Changes own N A s t) :
    t.ourKey = s.ourKey := congrArg Prod.fst (config_of_changes h)

theorem clean_of_changes {s t : MembershipLayer} (h : Changes own N A s t)
    (hown : s.ourKey = own) (hs : Clean N s) : Clean N t := by
  induction h with
  | refl => exact hs
  | tail hfirst hlast ih =>
      have hkey := ourKey_of_changes hfirst
      exact clean_of_changed hlast (by rw [hkey, hown]) ih

/-- Without a condemnation, a key that is dead after was dead before. -/
theorem not_dead_of_changes (hA : ∀ k, ¬ A (.condemn k)) {s t : MembershipLayer}
    (h : Changes own N A s t) (k : Key) (hk : t.deadAt k) : s.deadAt k := by
  induction h with
  | refl => exact hk
  | tail _ hlast ih =>
      rcases hlast with ⟨c, hAc, -, hg, ht⟩
      rw [ht] at hk
      rcases deadAt_apply hg hk with hold | hcond
      · exact ih hold
      · rw [hcond] at hAc
        exact (hA k hAc).elim

/-- A key that was dead stays dead, or is alive by a revival of its own. -/
theorem dead_after_apply {own : PyStr} {s : MembershipLayer} {c : Change} (hg : c.guard own s)
    {k : Key} (hk : s.deadAt k) :
    (c.apply s).deadAt k ∨ c = .revive k ∧ (c.apply s).aliveAt k := by
  have hdead : s.statusAt k = some .dead := hk
  unfold MembershipLayer.deadAt MembershipLayer.aliveAt
  rw [statusAt_apply own s c hg k]
  cases c with
  | revive k' =>
      by_cases hkk : k = k'
      · right
        rw [Change.statusAfter, statusMoved, if_pos hkk, hdead, hkk]
        exact ⟨rfl, rfl⟩
      · left
        rw [Change.statusAfter, statusMoved, if_neg hkk, hdead]
  | insert now k' =>
      -- A key that is inserted was not in the table.
      have hne : ¬ k = k' := by
        intro hkk
        have hnone : s.statusAt k = none := by rw [hkk, statusAt, hg.1, Option.map_none]
        rw [hnone] at hdead
        simp only [reduceCtorEq] at hdead
      left
      rw [Change.statusAfter, if_neg hne, hdead]
  | suspect k' =>
      -- Only a peer that is alive is suspected.
      have hne : ¬ k = k' := by
        intro hkk
        have halive : s.statusAt k = some .alive := by rw [hkk]; exact hg
        rw [hdead] at halive
        simp only [Option.some.injEq, reduceCtorEq] at halive
      left
      rw [Change.statusAfter, statusMoved, if_neg hne, hdead]
  | condemn k' =>
      left
      rw [Change.statusAfter, statusMoved]
      by_cases hkk : k = k'
      · rw [if_pos hkk, hdead]
        rfl
      · rw [if_neg hkk, hdead]
  | advertise k' f => exact Or.inl hk
  | openReports k' => exact Or.inl hk
  | addReport k' r => exact Or.inl hk
  | seen v => exact Or.inl hk
  | connect ks => exact Or.inl hk

/-- Without a revival of it, a key that was dead stays dead. -/
theorem dead_of_changes {k : Key} (hA : ¬ A (.revive k)) {s t : MembershipLayer}
    (h : Changes own N A s t) (hk : s.deadAt k) : t.deadAt k := by
  induction h with
  | refl => exact hk
  | tail _ hlast ih =>
      rcases hlast with ⟨c, hAc, -, hg, ht⟩
      rw [ht]
      rcases dead_after_apply hg ih with hdead | ⟨hc, _⟩
      · exact hdead
      · rw [hc] at hAc
        exact (hA hAc).elim

end Changes

/-- The frame of an operation at the node with key `own`: allowed changes, and
    from a clean table only messages that name known keys. -/
def memberFrame (own : PyStr) (N : Key → Prop) (A : Change → Prop) :
    Frame MembershipLayer Send where
  rel := fun s t => s.ourKey = own → Changes own N A s t
  out := fun s o => s.ourKey = own → Clean N s → NamesOnly N o.msg
  refl := fun _ _ => Relation.ReflTransGen.refl
  trans := fun s t u hst htu hown =>
    have hfirst := hst hown
    hfirst.trans (htu (by rw [ourKey_of_changes hfirst, hown]))
  pull := fun s t o hst ho hown hclean =>
    have hfirst := hst hown
    ho (by rw [ourKey_of_changes hfirst, hown]) (clean_of_changes hfirst hown hclean)

theorem changes_mono {own : PyStr} {N : Key → Prop} {A A' : Change → Prop}
    (himp : ∀ c, A c → A' c) {s t : MembershipLayer} (h : Changes own N A s t) :
    Changes own N A' s t := by
  have hone : ∀ a b, Changed own N A a b → Changed own N A' a b := by
    rintro a b ⟨c, hA, hrest⟩
    exact ⟨c, himp c hA, hrest⟩
  exact Relation.ReflTransGen.mono hone s t h

theorem withinAt_mono {own : PyStr} {N : Key → Prop} {A A' : Change → Prop}
    (himp : ∀ c, A c → A' c) {α : Type} {x : Act α} {s : MembershipLayer}
    (h : WithinAt (memberFrame own N A) x s) : WithinAt (memberFrame own N A') x s :=
  ⟨fun hown => changes_mono himp (h.1 hown), h.2⟩

/-! ## Steps in their frames -/

section Steps

variable {own : PyStr} {N : Key → Prop} {A : Change → Prop}

theorem change_within (c : Change) (hA : A c) (hN : ∀ k, c.inserts = some k → N k)
    (s : MembershipLayer) (hg : s.ourKey = own → c.guard own s) :
    WithinAt (memberFrame own N A) (modify c.apply : Act Unit) s :=
  withinAt_modify (fun hown => Relation.ReflTransGen.single ⟨c, hA, hN, hg hown, rfl⟩)

/-- Only states of the node itself matter. -/
theorem withinAt_of_own {α : Type} {x : Act α} {s : MembershipLayer}
    (h : s.ourKey = own → WithinAt (memberFrame own N A) x s) :
    WithinAt (memberFrame own N A) x s := by
  by_cases hs : s.ourKey = own
  · exact h hs
  · exact ⟨fun hc => (hs hc).elim, fun _ _ hc => (hs hc).elim⟩

theorem logKey_within (k : Key) : Within (memberFrame own N A) (logKey k) := by
  cases k with
  | str x => exact within_pure ()
  | none => exact within_raise _
  | num q => exact within_raise _

theorem send_within (k : Key) (msg : Msg) (s : MembershipLayer)
    (hmsg : s.ourKey = own → Clean N s → NamesOnly N msg) :
    WithinAt (memberFrame own N A) (send k msg) s := by
  cases k with
  | num q => exact within_raise _ s
  | none => exact withinAt_emit hmsg
  | str x => exact withinAt_emit hmsg

theorem discover_within (now : ℚ) (k : Key) (hA : A (.insert now k)) (hN : N k)
    (hk : k ≠ .str own) : Within (memberFrame own N A) (discover now k) := by
  intro s
  refine withinAt_read_bind ?_
  cases hpeer : s.peers.get? k with
  | some p => exact within_pure () s
  | none =>
      refine withinAt_bind (change_within (.insert now k) hA ?_ s (fun _ => ⟨hpeer, hk⟩))
        (fun _ _ => logKey_within k _)
      intro k' hk'
      rw [← Option.some.inj hk']
      exact hN

theorem sendAll_still (ks : List Key) (msg : Msg) :
    Within (still (fun _ o => o.msg = msg ∧ o.dest ∈ ks)) (each (fun k => send k msg) ks) := by
  refine within_each ks (fun k hk s => ?_)
  cases k with
  | num q => exact within_raise _ s
  | none => exact withinAt_emit ⟨rfl, hk⟩
  | str x => exact withinAt_emit ⟨rfl, hk⟩

/-- A relay sends one message, to peers that are not dead. -/
theorem fanout_still (env : MemberEnv) (msg : Msg) :
    Within (still (fun s o => o.msg = msg ∧ o.dest ∈ s.getAlivePeers)) (fanout env msg) := by
  intro s
  refine withinAt_read_bind ⟨(sendAll_still _ msg s).1, fun o ho => ?_⟩
  rcases (sendAll_still _ msg s).2 o ho with ⟨hmsg, hdest⟩
  refine ⟨hmsg, ?_⟩
  -- Shuffling and cutting off the list only rearranges and drops targets.
  rcases List.mem_append.mp (List.mem_of_mem_take hdest) with hd | hd
  · exact (List.mem_filter.mp ((env.shuffle_perm msg _).mem_iff.mp hd)).1
  · exact (List.mem_filter.mp ((env.shuffle_perm msg _).mem_iff.mp hd)).1

/-- A relay differs from its message in the hops only. -/
theorem decHops_assign {msg relayed : Msg} (h : decHops msg = .ok (some relayed)) :
    ∃ v, relayed = assign (lit "hops") v msg := by
  unfold decHops at h
  cases hv : getD msg (lit "hops") (.int 0) with
  | int n =>
      rw [hv] at h
      by_cases hn : n - 1 > 0
      · simp only [if_pos hn, Except.ok.injEq, Option.some.injEq] at h
        exact ⟨_, h.symm⟩
      · simp only [if_neg hn, Except.ok.injEq, reduceCtorEq] at h
  | float q =>
      rw [hv] at h
      by_cases hq : q - 1 > 0
      · simp only [if_pos hq, Except.ok.injEq, Option.some.injEq] at h
        exact ⟨_, h.symm⟩
      · simp only [if_neg hq, Except.ok.injEq, reduceCtorEq] at h
  | bool b => simp only [hv, Except.ok.injEq, reduceCtorEq] at h
  | none => simp only [hv, reduceCtorEq] at h
  | str x => simp only [hv, reduceCtorEq] at h
  | list xs => simp only [hv, reduceCtorEq] at h
  | dict kvs => simp only [hv, reduceCtorEq] at h

theorem lookup_relayed {msg relayed : Msg} (h : decHops msg = .ok (some relayed)) {field : PyStr}
    (hfield : field ≠ lit "hops") : lookup field relayed = lookup field msg := by
  rcases decHops_assign h with ⟨v, hv⟩
  rw [hv, lookup_assign_of_ne _ _ _ _ hfield]

/-- A message with one hop less names the same keys. -/
theorem names_decHops {msg relayed : Msg} (h : decHops msg = .ok (some relayed)) (k : Key) :
    Names relayed k ↔ Names msg k := by
  unfold Names PyVal.get PyVal.getD
  rw [lookup_relayed h (by decide), lookup_relayed h (by decide)]

theorem forward_still (env : MemberEnv) (msg : Msg) :
    Within (still (fun s o => (∀ k, Names o.msg k ↔ Names msg k) ∧ o.dest ∈ s.getAlivePeers))
      (forward env msg) := by
  intro s
  refine withinAt_bind (within_attempt _ s) (fun r hr => ?_)
  cases r with
  | none => exact within_pure () s
  | some relayed =>
      have hnames := names_decHops (show decHops msg = .ok (some relayed) from hr)
      refine withinAt_of_still (fanout_still env relayed s) (fun o ho => ⟨?_, ho.2⟩)
      rw [ho.1]
      exact hnames

theorem forward_within (env : MemberEnv) (msg : Msg) (hmsg : NamesOnly N msg) :
    Within (memberFrame own N A) (forward env msg) := by
  intro s
  refine withinAt_of_still (forward_still env msg s) (fun o ho _ _ k hk => ?_)
  exact hmsg k ((ho.1 k).mp hk)

theorem adopt_within {α : Type} (k : Key) (v : PyVal) (given : Bool)
    (convert : PyVal → Except PyErr α) (store : α → PeerInfo → PeerInfo)
    (hstore : ∀ a p, (store a p).status = p.status) (hA : ∀ f, A (.advertise k f)) :
    Within (memberFrame own N A) (adopt k v given convert store) := by
  unfold adopt
  cases given with
  | false => exact within_pure ()
  | true =>
      exact within_bind (within_attempt _) (fun a s =>
        change_within (.advertise k (store a)) (hA _) (fun _ h => nomatch h) s
          (fun _ => hstore a))

theorem revive_within (k : Key) (hA : A (.revive k)) : Within (memberFrame own N A) (revive k) := by
  intro s
  refine withinAt_read_bind ?_
  cases hk : s.peers.get? k with
  | none => exact within_pure () s
  | some p =>
      by_cases hst : p.status ≠ .alive
      · simp only [if_pos hst]
        exact withinAt_bind (change_within (.revive k) hA (fun _ h => nomatch h) s
          (fun _ => trivial)) (fun _ _ => logKey_within k _)
      · simp only [if_neg hst]
        exact within_pure () s

end Steps

/-! ## Operations in their frames -/

/-- The changes a heartbeat or a join may cause: at its sender and the keys it
    lists. -/
def ByNews (msg : Msg) : Change → Prop
  | .insert _ k => Names msg k
  | .advertise k _ | .revive k => hashKey (get msg (lit "from")) = .ok k
  | _ => False

/-- The changes a suspicion may cause: at the peer it suspects. -/
def ByReport (msg : Msg) : Change → Prop
  | .openReports k | .addReport k _ | .condemn k => hashKey (get msg (lit "suspect")) = .ok k
  | _ => False

/-- The changes a received message may cause. -/
def ByMessage (msg : Msg) (c : Change) : Prop :=
  c = .seen (get msg (lit "msg_id")) ∨
    get msg (lit "type") = .str (lit "suspicion") ∧ ByReport msg c ∨
    get msg (lit "type") ≠ .str (lit "suspicion") ∧ ByNews msg c

/-- The changes a topology may cause. -/
def BySync (connectedKeys : List PyStr) : Change → Prop
  | .insert _ k => ∃ c ∈ connectedKeys, k = .str c
  | .suspect _ => True
  | .connect ks => ks = connectedKeys
  | _ => False

/-- The changes the failure detector may cause. -/
def ByTick : Change → Prop
  | .suspect _ => True
  | _ => False

section Operations

variable {own : PyStr} {N : Key → Prop}

/-- The sender a handler accepts: hashable and not the node itself. -/
theorem sender_ne {own : PyStr} {sender : PyVal} {k : Key}
    (hself : (sender.truthy && !pyEq sender (.str own)) = true) (hk : hashKey sender = .ok k) :
    k ≠ .str own := by
  intro hkey
  rw [hkey, hashKey_eq_str] at hk
  rw [hk, pyEq_refl, Bool.not_true, Bool.and_false] at hself
  exact Bool.false_ne_true hself

theorem onNodeJoin_within (env : MemberEnv) (msg : Msg) (hmsg : NamesOnly N msg) :
    Within (memberFrame own N (ByNews msg)) (onNodeJoin env msg) := by
  refine fun s => withinAt_of_own (fun hs => withinAt_read_bind ?_)
  by_cases hself : ((get msg (lit "from")).truthy
      && !pyEq (get msg (lit "from")) (.str s.ourKey)) = true
  · rw [if_pos hself]
    refine withinAt_bind (within_attempt _ s) (fun k hk => ?_)
    have hfrom : hashKey (get msg (lit "from")) = .ok k := hk
    have hne : k ≠ .str own := by
      rw [← hs]
      exact sender_ne hself hfrom
    have hadv : ∀ f, ByNews msg (.advertise k f) := fun _ => hfrom
    refine within_bind (discover_within env.now k (Or.inl hfrom) (hmsg k (Or.inl hfrom)) hne)
      (fun _ => ?_) _
    refine within_bind (fun s => change_within (.advertise k _) hfrom (fun _ h => nomatch h) s
      (fun _ _ => rfl)) (fun _ => ?_)
    refine within_bind (revive_within k hfrom) (fun _ => ?_)
    refine within_bind (adopt_within k _ _ _ _ (fun _ _ => rfl) hadv) (fun _ => ?_)
    refine within_bind (adopt_within k _ _ _ _ (fun _ _ => rfl) hadv) (fun _ => ?_)
    refine within_bind (adopt_within k _ _ _ _ (fun _ _ => rfl) hadv) (fun _ => ?_)
    refine within_bind (adopt_within k _ _ _ _ (fun _ _ => rfl) hadv) (fun _ => ?_)
    exact forward_within env msg hmsg
  · rw [if_neg hself]
    exact within_pure () s

theorem absorb_within (now : ℚ) (msg : Msg) (hmsg : NamesOnly N msg) (p : PyVal)
    (hp : ∀ k, hashKey p = .ok k → Names msg k) :
    Within (memberFrame own N (ByNews msg)) (absorb now p) := by
  refine within_bind_attempt (fun k hk s => withinAt_of_own (fun hs => withinAt_read_bind ?_))
  have hname : Names msg k := hp k hk
  by_cases hself : k ≠ .str s.ourKey
  · rw [if_pos hself]
    rw [hs] at hself
    exact discover_within now k hname (hmsg k hname) hself s
  · rw [if_neg hself]
    exact within_pure () s

theorem onHeartbeat_within (env : MemberEnv) (msg : Msg) (hmsg : NamesOnly N msg) :
    Within (memberFrame own N (ByNews msg)) (onHeartbeat env msg) := by
  refine fun s => withinAt_of_own (fun hs => withinAt_read_bind ?_)
  by_cases hself : ((get msg (lit "from")).truthy
      && !pyEq (get msg (lit "from")) (.str s.ourKey)) = true
  · rw [if_pos hself]
    refine withinAt_bind (within_attempt _ s) (fun k hk => ?_)
    have hfrom : hashKey (get msg (lit "from")) = .ok k := hk
    have hne : k ≠ .str own := by
      rw [← hs]
      exact sender_ne hself hfrom
    have hadv : ∀ f, ByNews msg (.advertise k f) := fun _ => hfrom
    refine within_bind (discover_within env.now k (Or.inl hfrom) (hmsg k (Or.inl hfrom)) hne)
      (fun _ => ?_) _
    refine within_bind (fun s => change_within (.advertise k _) hfrom (fun _ h => nomatch h) s
      (fun _ _ => rfl)) (fun _ => ?_)
    refine within_bind (fun s => change_within (.advertise k _) hfrom (fun _ h => nomatch h) s
      (fun _ _ => rfl)) (fun _ => ?_)
    refine within_bind (adopt_within k _ _ _ _ (fun _ _ => rfl) hadv) (fun _ => ?_)
    refine within_bind (adopt_within k _ _ _ _ (fun _ _ => rfl) hadv) (fun _ => ?_)
    refine within_bind (adopt_within k _ _ _ _ (fun _ _ => rfl) hadv) (fun _ => ?_)
    refine within_bind (adopt_within k _ _ _ _ (fun _ _ => rfl) hadv) (fun _ => ?_)
    refine within_bind (adopt_within k _ _ _ _ (fun _ _ => rfl) hadv) (fun _ => ?_)
    refine within_bind (revive_within k hfrom) (fun _ => ?_)
    -- The keys absorbed are the ones the message lists.
    refine within_bind_attempt (fun known hknown => ?_)
    refine within_bind (within_each known (fun p hp => ?_)) (fun _ => forward_within env msg hmsg)
    exact absorb_within env.now msg hmsg p (fun k' hk' => Or.inr ⟨known, hknown, p, hp, hk'⟩)
  · rw [if_neg hself]
    exact within_pure () s

theorem onSuspicion_within (env : MemberEnv) (fromPeer : PyVal) (msg : Msg)
    (hmsg : NamesOnly N msg) :
    Within (memberFrame own N (ByReport msg)) (onSuspicion env fromPeer msg) := by
  refine fun s => withinAt_of_own (fun hs => withinAt_read_bind ?_)
  by_cases hself : ((get msg (lit "suspect")).truthy
      && !pyEq (get msg (lit "suspect")) (.str s.ourKey)) = true
  · rw [if_pos hself]
    refine withinAt_bind (within_attempt _ s) (fun k hk => ?_)
    have hsuspect : hashKey (get msg (lit "suspect")) = .ok k := hk
    have hne : k ≠ .str own := by
      rw [← hs]
      exact sender_ne hself hsuspect
    refine withinAt_bind (within_attempt _ s) (fun st _ => ?_)
    cases st with
    | true => exact within_pure () s
    | false =>
        -- From here on the handler writes, in three steps.
        refine withinAt_bind (change_within (.openReports k) hsuspect (fun _ h => nomatch h) s
          (fun _ => hne)) (fun _ _ => ?_)
        refine within_bind (within_attempt _) (fun r => ?_) _
        refine within_bind (fun s => change_within (.addReport k r) hsuspect
          (fun _ h => nomatch h) s (fun _ => hne)) (fun _ s => withinAt_read_bind ?_)
        by_cases hcond : s.condemned k = true
        · rw [if_pos hcond]
          refine withinAt_bind (change_within (.condemn k) hsuspect (fun _ h => nomatch h) s
            (fun _ => hcond)) (fun _ _ => ?_)
          exact within_bind (logKey_within k) (fun _ => forward_within env msg hmsg) _
        · rw [if_neg hcond]
          exact forward_within env msg hmsg s
  · rw [if_neg hself]
    exact within_pure () s

theorem handleMessage_within (env : MemberEnv) (fromPeer : PyVal) (msg : Msg)
    (hmsg : NamesOnly N msg) :
    Within (memberFrame own N (ByMessage msg)) (handleMessage env fromPeer msg) := by
  refine fun s => withinAt_read_bind ?_
  by_cases hfresh : ((get msg (lit "msg_id")).truthy
      && !pyIn (get msg (lit "msg_id")) s.seenIds.items) = true
  · rw [if_pos hfresh]
    have hseen : ByMessage msg (.seen (get msg (lit "msg_id"))) := Or.inl rfl
    refine withinAt_bind (change_within (.seen _) hseen (fun _ h => nomatch h) s
      (fun _ => trivial)) (fun _ _ => ?_)
    by_cases hsusp : get msg (lit "type") = .str (lit "suspicion")
    · have hheart : ¬ pyEq (get msg (lit "type")) (.str (lit "heartbeat")) = true := by
        rw [pyEq_str, hsusp]
        decide
      rw [if_neg hheart, if_pos ((pyEq_str _ _).mpr hsusp)]
      exact withinAt_mono (fun c hc => Or.inr (Or.inl ⟨hsusp, hc⟩))
        (onSuspicion_within env fromPeer msg hmsg _)
    · -- Heartbeats and joins are news, and a message of another type does nothing.
      have hnews : ∀ c, ByNews msg c → ByMessage msg c := fun c hc => Or.inr (Or.inr ⟨hsusp, hc⟩)
      by_cases hheart : pyEq (get msg (lit "type")) (.str (lit "heartbeat")) = true
      · rw [if_pos hheart]
        exact withinAt_mono hnews (onHeartbeat_within env msg hmsg _)
      · rw [if_neg hheart, if_neg (fun hc => hsusp ((pyEq_str _ _).mp hc))]
        by_cases hjoin : pyEq (get msg (lit "type")) (.str (lit "node_join")) = true
        · rw [if_pos hjoin]
          exact withinAt_mono hnews (onNodeJoin_within env msg hmsg _)
        · rw [if_neg hjoin]
          exact within_pure () _
  · rw [if_neg hfresh]
    exact within_pure () s

/-! ## Confirmed deaths -/

/-- The statuses after a suspicion: only the peer it condemns changes. -/
theorem onSuspicion_statusAt (env : MemberEnv) (fromPeer : PyVal) (msg : Msg)
    (s : MembershipLayer) (k : Key) :
    (onSuspicion env fromPeer msg s).state.statusAt k =
      match s.condemns fromPeer msg with
      | some k₀ => statusMoved s .dead k₀ k
      | none => s.statusAt k := by
  have hforward : ∀ t, (forward env msg t).state = t := fun t => (forward_still env msg t).1.symm
  unfold onSuspicion condemns
  rw [read_bind]
  by_cases hself : ((get msg (lit "suspect")).truthy
      && !pyEq (get msg (lit "suspect")) (.str s.ourKey)) = true
  · rw [if_pos hself, if_pos hself]
    cases hk : hashKey (get msg (lit "suspect")) with
    | error e => rfl
    | ok k₀ =>
        rw [attempt_ok_bind]
        cases hr : hashKey (getD msg (lit "from") fromPeer) with
        | error e =>
            -- The reporter is hashed only after the report was opened.
            cases s.stale k₀ msg with
            | error e' => rfl
            | ok st =>
                cases st with
                | true => rfl
                | false => rfl
        | ok r =>
            cases hstale : s.stale k₀ msg with
            | error e =>
                simp only [hstale]
                rfl
            | ok st =>
                simp only [hstale]
                rw [attempt_ok_bind]
                cases st with
                | true => rfl
                | false =>
                    rw [if_neg Bool.false_ne_true, modify_bind]
                    rw [attempt_ok_bind, modify_bind, read_bind]
                    by_cases hcond : (addReport k₀ r (openReports k₀ s)).condemned k₀ = true
                    · simp only [if_pos hcond]
                      rw [modify_bind]
                      -- The log line may raise; the status is assigned before it.
                      have hstate :
                          ∀ t, ((logKey k₀ >>= fun _ => forward env msg) t).state = t := by
                        intro t
                        cases k₀ with
                        | str x => exact hforward t
                        | none => rfl
                        | num q => rfl
                      rw [hstate, statusAt_setStatus]
                      rfl
                    · simp only [if_neg hcond]
                      rw [hforward]
                      rfl
  · rw [if_neg hself, if_neg hself]
    rfl

/-- A condemned peer is in the table, not dead, and has enough reports. -/
theorem condemned_iff (s : MembershipLayer) (k : Key) :
    s.condemned k = true ↔ (∃ p, s.peers.get? k = some p ∧ p.status ≠ .dead) ∧
      deadReportsNeeded ≤ ((s.suspicions.get? k).getD ∅).card := by
  unfold condemned
  cases hk : s.peers.get? k with
  | none => simp only [Bool.false_eq_true, reduceCtorEq, false_and, exists_false]
  | some p =>
      simp only [Bool.and_eq_true, decide_eq_true_eq, Option.some.injEq, exists_eq_left', ge_iff_le]

/-- What the code has checked when a suspicion condemns a peer. -/
theorem condemns_some {s : MembershipLayer} {fromPeer : PyVal} {msg : Msg} {k : Key}
    (h : s.condemns fromPeer msg = some k) :
    hashKey (get msg (lit "suspect")) = .ok k ∧ s.stale k msg = .ok false ∧
      ∃ r, hashKey (getD msg (lit "from") fromPeer) = .ok r ∧
        (addReport k r (openReports k s)).condemned k = true := by
  unfold condemns at h
  -- The guards of the handler in their order; each has to be passed.
  by_cases hself : ((get msg (lit "suspect")).truthy
      && !pyEq (get msg (lit "suspect")) (.str s.ourKey)) = true
  · rw [if_pos hself] at h
    cases hk : hashKey (get msg (lit "suspect")) with
    | error e =>
        rw [hk] at h
        exact (nomatch h)
    | ok k' =>
        cases hr : hashKey (getD msg (lit "from") fromPeer) with
        | error e =>
            rw [hk, hr] at h
            exact (nomatch h)
        | ok r =>
            simp only [hk, hr] at h
            cases hstale : s.stale k' msg with
            | error e =>
                rw [hstale] at h
                exact (nomatch h)
            | ok st =>
                cases st with
                | true =>
                    rw [hstale] at h
                    exact (nomatch h)
                | false =>
                    simp only [hstale] at h
                    by_cases hcond : (addReport k' r (openReports k' s)).condemned k' = true
                    · rw [if_pos hcond, Option.some.injEq] at h
                      rw [← h]
                      exact ⟨rfl, hstale, r, rfl, hcond⟩
                    · rw [if_neg hcond] at h
                      exact (nomatch h)
  · rw [if_neg hself] at h
    exact (nomatch h)

/-- A peer that a message confirms dead is in the table. -/
theorem knows_of_confirms {s : MembershipLayer} {fromPeer : PyVal} {msg : Msg} {k : Key}
    (h : s.confirms fromPeer msg = some k) : s.knows k := by
  unfold confirms at h
  by_cases hd : s.dispatches (lit "suspicion") msg = true
  · rw [if_pos hd] at h
    rcases condemns_some h with ⟨_, _, r, _, hcond⟩
    rcases ((condemned_iff _ k).mp hcond).1 with ⟨p, hp, _⟩
    exact (knows_iff s k).mpr ⟨p, hp⟩
  · rw [if_neg hd] at h
    exact (nomatch h)

/-- Condemnation looks at the tables and the node's own key only. -/
theorem condemns_congr {s t : MembershipLayer} (hpeers : t.peers = s.peers)
    (hsusp : t.suspicions = s.suspicions) (hkey : t.ourKey = s.ourKey) (fromPeer : PyVal)
    (msg : Msg) : t.condemns fromPeer msg = s.condemns fromPeer msg := by
  have hstale : ∀ k, t.stale k msg = s.stale k msg := fun k => by
    unfold stale
    rw [hpeers]
  have hcond : ∀ k r, (addReport k r (openReports k t)).condemned k =
      (addReport k r (openReports k s)).condemned k := fun k r => by
    unfold condemned addReport openReports
    rw [hpeers, hsusp]
  unfold condemns
  simp only [hstale, hcond, hkey]

theorem condemns_seen (s : MembershipLayer) (v fromPeer : PyVal) (msg : Msg) :
    (markSeen v s).condemns fromPeer msg = s.condemns fromPeer msg :=
  condemns_congr rfl rfl rfl fromPeer msg

/-- Exactly the keys that were dead and the one the message confirms. -/
theorem handleMessage_confirms (env : MemberEnv) (fromPeer : PyVal) (msg : Msg)
    (s : MembershipLayer) (k₀ k : Key) (h : s.confirms fromPeer msg = some k₀) :
    (handleMessage env fromPeer msg s).state.statusAt k = statusMoved s .dead k₀ k := by
  unfold confirms dispatches at h
  by_cases hd : ((get msg (lit "msg_id")).truthy
      && !pyIn (get msg (lit "msg_id")) s.seenIds.items
      && pyEq (get msg (lit "type")) (.str (lit "suspicion"))) = true
  · rw [if_pos hd] at h
    rw [Bool.and_eq_true] at hd
    have hsusp := (pyEq_str _ _).mp hd.2
    have hheart : ¬ pyEq (get msg (lit "type")) (.str (lit "heartbeat")) = true := by
      rw [pyEq_str, hsusp]
      decide
    unfold handleMessage
    rw [read_bind, if_pos hd.1, modify_bind]
    simp only [if_neg hheart, if_pos hd.2]
    rw [onSuspicion_statusAt, condemns_seen, h]
    rfl
  · rw [if_neg hd] at h
    exact (nomatch h)

/-- A message that confirms no one leaves no key dead that was not. -/
theorem handleMessage_not_dead (env : MemberEnv) (fromPeer : PyVal) (msg : Msg)
    (s : MembershipLayer) (h : s.confirms fromPeer msg = none) (k : Key)
    (hk : (handleMessage env fromPeer msg s).state.deadAt k) : s.deadAt k := by
  by_cases hsusp : get msg (lit "type") = .str (lit "suspicion")
  · have hheart : ¬ pyEq (get msg (lit "type")) (.str (lit "heartbeat")) = true := by
      rw [pyEq_str, hsusp]
      decide
    unfold handleMessage at hk
    rw [read_bind] at hk
    by_cases hfresh : ((get msg (lit "msg_id")).truthy
        && !pyIn (get msg (lit "msg_id")) s.seenIds.items) = true
    · -- The suspicion is dispatched, so the condition is about this handler.
      have hdisp : s.dispatches (lit "suspicion") msg = true := by
        unfold dispatches
        rw [hfresh, Bool.true_and]
        exact (pyEq_str _ _).mpr hsusp
      rw [confirms, if_pos hdisp] at h
      rw [if_pos hfresh, modify_bind] at hk
      simp only [if_neg hheart, if_pos ((pyEq_str _ _).mpr hsusp), deadAt] at hk
      rw [onSuspicion_statusAt, condemns_seen, h] at hk
      exact hk
    · rw [if_neg hfresh] at hk
      exact hk
  · -- Heartbeats and joins make no condemnation.
    have hN : NamesOnly (fun _ => True) msg := fun _ _ => trivial
    refine not_dead_of_changes ?_ ((handleMessage_within env fromPeer msg hN s).1 rfl) k hk
    rintro k' (hc | ⟨hc, _⟩ | ⟨_, hc⟩)
    · exact (nomatch hc)
    · exact hsusp hc
    · exact hc

/-! ## Periodic operations in their frames -/

/-- A message of the node itself that lists no peers names only the node. -/
theorem namesOnly_own {msg : Msg} (hown : N (.str own))
    (hfrom : lookup (lit "from") msg = some (.str own))
    (hknown : lookup (lit "known_peers") msg = none) : NamesOnly N msg := by
  rintro k (hk | ⟨ps, hps, p, hp, _⟩)
  · rw [PyVal.get, hfrom] at hk
    rw [← Except.ok.inj hk]
    exact hown
  · rw [PyVal.getD, hknown] at hps
    rw [← Except.ok.inj hps] at hp
    exact (List.not_mem_nil hp).elim

theorem lookup_withEncPubkey (s : MembershipLayer) (msg : Msg) (k : PyStr)
    (hk : k ≠ lit "enc_pubkey") : lookup k (s.withEncPubkey msg) = lookup k msg := by
  unfold withEncPubkey
  cases s.ourEncPubkey with
  | none => rfl
  | some e =>
      by_cases he : e = []
      · simp only [if_pos he]
      · simp only [if_neg he]
        exact lookup_assign_of_ne _ _ _ _ hk

theorem aliveAt_of_silent {s : MembershipLayer} {now limit : ℚ} {k : Key}
    (h : s.silent now limit k = true) : s.aliveAt k := by
  unfold silent at h
  cases hk : s.peers.get? k with
  | none =>
      rw [hk] at h
      exact (Bool.false_ne_true h).elim
  | some p =>
      rw [hk] at h
      have hst : p.status = .alive := of_decide_eq_true ((Bool.and_eq_true _ _).mp h).1
      exact (statusAt_eq_some s k .alive).mpr ⟨p, hk, hst⟩

variable {A : Change → Prop}

theorem addPeer_within (now : ℚ) (peerKey : PyStr) (hN : N (.str peerKey))
    (hA : A (.insert now (.str peerKey))) :
    Within (memberFrame own N A) (addPeer now peerKey) := by
  refine fun s => withinAt_of_own (fun hs => withinAt_read_bind ?_)
  by_cases hself : peerKey ≠ s.ourKey
  · rw [if_pos hself]
    refine discover_within now (.str peerKey) hA hN (fun hc => hself ?_) s
    rw [hs]
    exact Key.str.inj hc
  · rw [if_neg hself]
    exact within_pure () s

theorem gossipSuspicion_within (env : MemberEnv) (suspect : Key) (hown : N (.str own)) :
    Within (memberFrame own N A) (gossipSuspicion env suspect) := by
  refine fun s => withinAt_of_own (fun hs => withinAt_read_bind ?_)
  refine withinAt_of_still (fanout_still env _ s) (fun o ho _ _ => ?_)
  rw [ho.1, hs]
  exact namesOnly_own hown rfl rfl

theorem sendJoinTo_within (env : MemberEnv) (hops : Int) (k : Key) (hown : N (.str own)) :
    Within (memberFrame own N A) (sendJoinTo env hops k) := by
  refine fun s => withinAt_of_own (fun hs => withinAt_read_bind ?_)
  refine send_within k _ s (fun _ _ => namesOnly_own hown ?_ ?_)
  · rw [lookup_withEncPubkey _ _ _ (by decide), hs]
    rfl
  · rw [lookup_withEncPubkey _ _ _ (by decide)]
    rfl

theorem broadcastJoin_within (env : MemberEnv) (hown : N (.str own)) :
    Within (memberFrame own N A) (broadcastJoin env) := fun s =>
  withinAt_read_bind (within_each _ (fun k _ => sendJoinTo_within env _ k hown) s)

theorem suspectSilent_within (now limit : ℚ) (ks : List Key) (hA : ∀ k, A (.suspect k)) :
    Within (memberFrame own N A) (suspectSilent now limit ks) := by
  induction ks with
  | nil => exact within_pure []
  | cons k ks ih =>
      refine fun s => withinAt_read_bind ?_
      by_cases hk : s.silent now limit k = true
      · rw [if_pos hk]
        have halive : s.aliveAt k := aliveAt_of_silent hk
        refine withinAt_bind (change_within (.suspect k) (hA k) (fun _ h => nomatch h) s
          (fun _ => halive)) (fun _ _ => ?_)
        refine within_bind (logKey_within k) (fun _ => ?_) _
        exact within_bind ih (fun _ => within_pure _)
      · rw [if_neg hk]
        exact ih s

theorem detectFailures_within (env : MemberEnv) (hown : N (.str own)) :
    Within (memberFrame own N ByTick) (detectFailures env) := by
  refine fun s => withinAt_read_bind ?_
  refine within_bind (suspectSilent_within _ _ _ (fun _ => trivial)) (fun suspectedNow => ?_) s
  exact within_each suspectedNow (fun k _ => gossipSuspicion_within env k hown)

theorem axlSync_within (env : MemberEnv) (connectedKeys : List PyStr) (hown : N (.str own))
    (hN : ∀ c ∈ connectedKeys, N (.str c)) :
    Within (memberFrame own N (BySync connectedKeys)) (axlSync env connectedKeys) := by
  refine fun s => withinAt_of_own (fun hs => withinAt_read_bind ?_)
  have hconnect : BySync connectedKeys (.connect connectedKeys) := rfl
  refine withinAt_bind (change_within (.connect connectedKeys) hconnect (fun _ h => nomatch h) s
    (fun _ => trivial)) (fun _ _ => ?_)
  refine within_bind (within_each _ (fun k hk => ?_)) (fun _ => ?_) _
  · -- A key that is unknown is one of the connected ones, and not our own.
    rcases List.mem_map.mp hk with ⟨c, hc, hck⟩
    rcases List.mem_filter.mp hc with ⟨hmem, hnew⟩
    have hconn : c ∈ connectedKeys := List.mem_dedup.mp hmem
    rw [← hck]
    refine discover_within env.now (.str c) ⟨c, hconn, rfl⟩ (hN c hconn) (fun hself => ?_)
    rw [decide_eq_true_iff, hs] at hnew
    exact hnew.1 (Key.str.inj hself)
  · refine within_bind (suspectSilent_within _ _ _ (fun _ => trivial)) (fun _ => ?_)
    refine within_bind (within_each _ (fun k _ => sendJoinTo_within env 1 k hown)) (fun _ => ?_)
    exact within_each _ (fun k _ => gossipSuspicion_within env k hown)

/-- A heartbeat lists the alive peers, so what it names the table holds. -/
theorem broadcastHeartbeat_within (env : MemberEnv) (hown : N (.str own)) :
    Within (memberFrame own N A) (broadcastHeartbeat env) := by
  refine fun s => withinAt_of_own (fun hs => withinAt_read_bind ?_)
  refine withinAt_of_still (sendAll_still _ _ s) (fun o ho _ hclean k hk => ?_)
  rw [ho.1] at hk
  rcases hk with hk | ⟨ps, hps, p, hp, hkey⟩
  · rw [PyVal.get, lookup_withEncPubkey _ _ _ (by decide)] at hk
    have hkey : Except.ok (Key.str s.ourKey) = Except.ok k := hk
    rw [← Except.ok.inj hkey, hs]
    exact hown
  · rw [PyVal.getD, lookup_withEncPubkey _ _ _ (by decide)] at hps
    have hlist : (s.keysWhere (fun p => p.status = .alive)).map Key.toVal = ps := Except.ok.inj hps
    rw [← hlist] at hp
    rcases List.mem_map.mp hp with ⟨k', hk', hval⟩
    rw [← hval, hashKey_toVal] at hkey
    rw [← Except.ok.inj hkey]
    refine (hclean k' ?_).1
    unfold MembershipLayer.knows
    rw [(mem_keysWhere_status s .alive k').mp hk']
    exact fun hc => nomatch hc

end Operations

end WhisperNet
