import WhisperNet.Cluster.Healing
import WhisperNet.Cluster.Flood
import WhisperNet.Membership.Overlay
import WhisperNet.Membership.Suspicion
import WhisperNet.Runtime.Traffic

/-!
# Verdicts of a Mesh

Where the suspicions and deaths in a mesh come from. A round of the failure
detector, or a topology that a peer has dropped out of, is the only thing that
finds a peer silent. The finding is gossiped, relayed, delivered late or twice
and counted at other nodes, and nothing on the way makes up a report or changes
whose it is.

So a node suspects a peer only if it has found it silent itself, and takes it
for dead only if two different nodes have. A peer that everybody hears from in
time is never suspected anywhere, whatever happens to the messages.

## Main definitions

* `MembershipLayer.finds`: The peers an operation finds silent.
* `Mesh.findings`: The same at an event, with the node that found them.
* `Grounded`: Suspicions, reports and deaths at a node rest on findings.
* `Attests`: A suspicion on its way rests on one.
* `Mesh.Upheld`: Both, in a mesh.

## Theorems

* `grounded_of_changes`: Changes that rest on findings.
* `handleMessage_upholds`, `beat_upholds`: What an operation leaves and sends.
* `Mesh.step_upheld`: A step of the mesh.
* `Mesh.found_silent`: Deaths have two finders, suspicions the node itself.
-/

namespace WhisperNet

open MembershipLayer WhisperNet.Action
open PyVal (get getD)

/-- The peers that an operation finds silent. -/
def MembershipLayer.finds (s : MembershipLayer) : Beat → List Key
  | .detect env => s.peers.keys.filter (s.silent env.now s.suspectAfter)
  | .sync env connectedKeys =>
    (s.dropped connectedKeys).filter (s.silent env.now (s.suspectAfter / 2))
  | _ => []

/-- The suspicions, reports and deaths at the node with this key rest on findings,
    `S r k` being that `r` has found `k` silent. -/
structure Grounded (own : PyStr) (S : Key → Key → Prop) (s : MembershipLayer) : Prop where
  ours : s.ourKey = own
  suspected : ∀ k, s.statusAt k = some .suspected → S (.str own) k
  dead : ∀ k, s.deadAt k → ∃ r r', r ≠ r' ∧ S r k ∧ S r' k
  reports : ∀ k, ∀ r ∈ reportsOn s k, S r k

/-- A suspicion names the node that made it, and a peer this node has found silent. -/
def Attests (S : Key → Key → Prop) (msg : Msg) : Prop :=
  get msg (lit "type") = .str (lit "suspicion") →
    ∃ from_ r, lookup (lit "from") msg = some from_ ∧ hashKey from_ = .ok r ∧
      ∀ k, hashKey (get msg (lit "suspect")) = .ok k → S r k

/-- Messages of another type. -/
theorem attests_other {S : Key → Key → Prop} (s : MembershipLayer) {name : PyStr} (rest : Msg)
    (h : name ≠ lit "suspicion") :
    Attests S (s.withEncPubkey ((lit "type", .str name) :: rest)) := by
  intro hc
  rw [withEncPubkey_type, PyVal.get, lookup, if_pos rfl] at hc
  exact absurd (PyVal.str.inj hc) h

theorem Attests.mono {S S' : Key → Key → Prop} (himp : ∀ r k, S r k → S' r k) {msg : Msg}
    (h : Attests S msg) : Attests S' msg := by
  intro htype
  rcases h htype with ⟨from_, r, hfrom, hr, hS⟩
  exact ⟨from_, r, hfrom, hr, fun k hk => himp r k (hS k hk)⟩

/-- A relay names the same two. -/
theorem Attests.relay {S : Key → Key → Prop} {msg relayed : Msg} (h : Attests S msg)
    (hdec : decHops msg = .ok (some relayed)) : Attests S relayed := by
  unfold Attests PyVal.get at h ⊢
  rw [lookup_relayed hdec (by decide), lookup_relayed hdec (by decide),
    lookup_relayed hdec (by decide)]
  exact h

/-! ## Changes -/

section Changes

variable {own : PyStr} {S : Key → Key → Prop}

theorem Grounded.mono {S' : Key → Key → Prop} (himp : ∀ r k, S r k → S' r k) {s : MembershipLayer}
    (h : Grounded own S s) : Grounded own S' s := by
  refine ⟨h.ours, fun k hk => himp _ _ (h.suspected k hk), fun k hk => ?_,
    fun k r hr => himp _ _ (h.reports k r hr)⟩
  rcases h.dead k hk with ⟨r, r', hne, hr, hr'⟩
  exact ⟨r, r', hne, himp _ _ hr, himp _ _ hr'⟩

theorem grounded_fresh (S : Key → Key → Prop) (s : MembershipLayer) :
    Grounded s.ourKey S s.fresh := by
  refine ⟨rfl, fun k hk => ?_, fun k hk => ?_, fun k r hr => ?_⟩
  · exact absurd hk (by simp only [fresh, statusAt, Dict.get?_empty, Option.map_none, reduceCtorEq,
      not_false_eq_true])
  · unfold MembershipLayer.deadAt at hk
    exact absurd hk (by simp only [fresh, statusAt, Dict.get?_empty, Option.map_none, reduceCtorEq,
      not_false_eq_true])
  · simp only [reportsOn, fresh, Dict.get?_empty, Option.getD_none, Finset.notMem_empty] at hr

/-- A change that adds nothing but what has been found. -/
def Supported (own : PyStr) (S : Key → Key → Prop) : Change → Prop
  | .suspect k => S (.str own) k
  | .addReport k r => S r k
  | _ => True

/-- Statuses that are no worse than before, and no more reports. -/
theorem Grounded.of_better {s t : MembershipLayer} (h : Grounded own S s)
    (hkey : t.ourKey = s.ourKey)
    (hstatus : ∀ k, t.statusAt k = s.statusAt k ∨ t.statusAt k = some .alive)
    (hreports : ∀ k, reportsOn t k ⊆ reportsOn s k) : Grounded own S t := by
  refine ⟨hkey.trans h.ours, fun k hk => ?_, fun k hk => ?_, fun k r hr =>
    h.reports k r (hreports k hr)⟩
  · rcases hstatus k with hs | hs
    · exact h.suspected k (hs ▸ hk)
    · rw [hs] at hk
      exact absurd hk (by simp only [Option.some.injEq, reduceCtorEq, not_false_eq_true])
  · unfold MembershipLayer.deadAt at hk
    rcases hstatus k with hs | hs
    · exact h.dead k (show s.statusAt k = some .dead from hs ▸ hk)
    · rw [hs] at hk
      exact absurd hk (by simp only [Option.some.injEq, reduceCtorEq, not_false_eq_true])

theorem grounded_apply {s : MembershipLayer} {c : Change} (h : Grounded own S s)
    (hc : Supported own S c) (hg : c.guard own s) : Grounded own S (c.apply s) := by
  have hkey : (c.apply s).ourKey = s.ourKey := congrArg Prod.fst (config_apply s c)
  have hstatus := statusAt_apply own s c hg
  cases c with
  | insert now k =>
      refine h.of_better hkey (fun k' => ?_) (fun _ => Finset.Subset.refl _)
      rw [hstatus k', Change.statusAfter]
      by_cases hkk : k' = k
      · rw [if_pos hkk]
        exact Or.inr rfl
      · rw [if_neg hkk]
        exact Or.inl rfl
  | advertise k f =>
      refine h.of_better hkey (fun k' => Or.inl (hstatus k')) (fun k' => ?_)
      simp only [Change.apply, reportsOn_updatePeer]
      exact Finset.Subset.refl _
  | revive k =>
      refine h.of_better hkey (fun k' => ?_) (fun k' => ?_)
      · rw [hstatus k', Change.statusAfter, statusMoved]
        by_cases hkk : k' = k
        · rw [if_pos hkk]
          cases hs : s.statusAt k' with
          | none => exact Or.inl rfl
          | some st => exact Or.inr rfl
        · rw [if_neg hkk]
          exact Or.inl rfl
      · simp only [Change.apply, reportsOn_popSuspicions, reportsOn_setStatus]
        split
        · exact Finset.empty_subset _
        · exact Finset.Subset.refl _
  | suspect k =>
      refine ⟨hkey.trans h.ours, fun k' hk' => ?_, fun k' hk' => ?_, fun k' r hr => ?_⟩
      · rw [hstatus k', Change.statusAfter] at hk'
        rcases statusMoved_eq_some hk' with hs | ⟨hkk, _⟩
        · exact h.suspected k' hs
        · rw [hkk]
          exact hc
      · unfold MembershipLayer.deadAt at hk'
        rw [hstatus k', Change.statusAfter] at hk'
        rcases statusMoved_eq_some hk' with hs | ⟨_, hst⟩
        · exact h.dead k' hs
        · exact absurd hst (by simp only [reduceCtorEq, not_false_eq_true])
      · rw [Change.apply, reportsOn_setStatus] at hr
        exact h.reports k' r hr
  | openReports k =>
      refine h.of_better hkey (fun k' => Or.inl (hstatus k')) (fun k' => ?_)
      rw [Change.apply, reportsOn_openReports]
  | addReport k r =>
      refine ⟨hkey.trans h.ours, h.suspected, h.dead, fun k' r' hr' => ?_⟩
      rw [Change.apply, reportsOn_addReport] at hr'
      by_cases hkk : k' = k
      · rw [if_pos hkk, Finset.mem_insert] at hr'
        rcases hr' with hr' | hr'
        · rw [hr', hkk]
          exact hc
        · exact h.reports k' r' hr'
      · rw [if_neg hkk] at hr'
        exact h.reports k' r' hr'
  | condemn k =>
      refine ⟨hkey.trans h.ours, fun k' hk' => ?_, fun k' hk' => ?_, fun k' r hr => ?_⟩
      · rw [hstatus k', Change.statusAfter] at hk'
        rcases statusMoved_eq_some hk' with hs | ⟨_, hst⟩
        · exact h.suspected k' hs
        · exact absurd hst (by simp only [reduceCtorEq, not_false_eq_true])
      · unfold MembershipLayer.deadAt at hk'
        rw [hstatus k', Change.statusAfter] at hk'
        rcases statusMoved_eq_some hk' with hs | ⟨hkk, _⟩
        · exact h.dead k' hs
        -- Two reports were counted, and each rests on a finding.
        · rcases Finset.one_lt_card.mp ((condemned_iff s k).mp hg).2 with ⟨r, hr, r', hr', hne⟩
          rw [hkk]
          exact ⟨r, r', hne, h.reports k r hr, h.reports k r' hr'⟩
      · rw [Change.apply, reportsOn_setStatus] at hr
        exact h.reports k' r hr
  | seen v => exact h.of_better hkey (fun _ => Or.inl rfl) (fun _ => Finset.Subset.refl _)
  | connect ks => exact h.of_better hkey (fun _ => Or.inl rfl) (fun _ => Finset.Subset.refl _)

/-- Changes that rest on findings keep a node grounded. -/
theorem grounded_of_changes {N : Key → Prop} {s t : MembershipLayer}
    (h : Changes own N (Supported own S) s t) (hs : Grounded own S s) : Grounded own S t := by
  induction h with
  | refl => exact hs
  | tail _ hlast ih =>
      rcases hlast with ⟨c, hc, -, hg, rfl⟩
      exact grounded_apply ih hc hg

/-- What leaves the node grounded, and sends suspicions that rest on findings. -/
def upholds (own : PyStr) (S : Key → Key → Prop) : Frame MembershipLayer Send :=
  keep (Grounded own S) (fun o => Attests S o.msg)

theorem upholds_of_changes {α : Type} {N : Key → Prop} {x : Act α} {s : MembershipLayer}
    (hx : WithinAt (memberFrame own N (Supported own S)) x s)
    (hout : s.ourKey = own → ∀ o ∈ (x s).out, Attests S o.msg) :
    WithinAt (upholds own S) x s :=
  ⟨fun hs => grounded_of_changes (hx.1 hs.ours) hs, fun o ho hs => hout hs.ours o ho⟩

end Changes

/-! ## Received messages -/

section Handlers

variable {own : PyStr} {S : Key → Key → Prop}

theorem onSuspicion_supported (env : MemberEnv) (fromPeer : PyVal) {msg : Msg}
    (htype : get msg (lit "type") = .str (lit "suspicion")) (hmsg : Attests S msg) :
    Within (memberFrame own (fun _ => True) (Supported own S)) (onSuspicion env fromPeer msg) := by
  rcases hmsg htype with ⟨from_, r₀, hfrom, hr₀, hfound⟩
  refine fun s => withinAt_of_own (fun hs => withinAt_read_bind ?_)
  by_cases hself : ((get msg (lit "suspect")).truthy
      && !pyEq (get msg (lit "suspect")) (.str s.ourKey)) = true
  · rw [if_pos hself]
    refine withinAt_bind (within_attempt _ s) (fun k hk => ?_)
    have hsuspect : hashKey (get msg (lit "suspect")) = .ok k := hk
    have hne : k ≠ .str own := by
      rw [← hs]
      exact sender_ne hself hsuspect
    refine withinAt_bind (within_attempt _ s) (fun st _ => ?_)
    cases st with
    | true => exact within_pure () s
    | false =>
        refine withinAt_bind (change_within (.openReports k) trivial (fun _ h => by cases h) s
          (fun _ => hne)) (fun _ _ => ?_)
        -- The reporter is the sender the message names, not who delivered it.
        refine within_bind_attempt (fun r hr => ?_) _
        rw [PyVal.getD, hfrom, Option.getD_some, hr₀] at hr
        have hreport : Supported own S (.addReport k r) := Except.ok.inj hr ▸ hfound k hsuspect
        refine within_bind (fun s => change_within (.addReport k r) hreport
          (fun _ h => by cases h) s (fun _ => hne)) (fun _ s => withinAt_read_bind ?_)
        by_cases hcond : s.condemned k = true
        · rw [if_pos hcond]
          refine withinAt_bind (change_within (.condemn k) trivial (fun _ h => by cases h) s
            (fun _ => hcond)) (fun _ _ => ?_)
          exact within_bind (logKey_within k)
            (fun _ => forward_within env msg (fun _ _ => trivial)) _
        · rw [if_neg hcond]
          exact forward_within env msg (fun _ _ => trivial) s
  · rw [if_neg hself]
    exact within_pure () s

/-- A received message makes up no report. -/
theorem handleMessage_upholds (env : MemberEnv) (fromPeer : PyVal) {msg : Msg}
    (hmsg : Attests S msg) : Within (upholds own S) (handleMessage env fromPeer msg) := by
  intro s
  have hrelays := handleMessage_relays env fromPeer msg s
  refine upholds_of_changes (N := fun _ => True) ?_
    (fun _ o ho => hmsg.relay (hrelays.2 o ho))
  by_cases htype : get msg (lit "type") = .str (lit "suspicion")
  · refine withinAt_read_bind ?_
    split
    · refine withinAt_bind (change_within (.seen _) trivial (fun _ h => by cases h) s
        (fun _ => trivial)) (fun _ _ => ?_)
      have hheart : ¬ pyEq (get msg (lit "type")) (.str (lit "heartbeat")) = true := by
        rw [pyEq_str, htype]
        decide
      rw [if_neg hheart, if_pos ((pyEq_str _ _).mpr htype)]
      exact onSuspicion_supported env fromPeer htype hmsg _
    · exact within_pure () s
  · refine withinAt_mono (fun c hc => ?_) (handleMessage_within env fromPeer msg
      (fun _ _ => trivial) s)
    rcases hc with rfl | ⟨hc, _⟩ | ⟨_, hc⟩
    · trivial
    · exact absurd hc htype
    · cases c with
      | suspect k => exact hc.elim
      | addReport k r => exact hc.elim
      | _ => trivial

/-! ## What a node does of its own accord -/

theorem send_upholds (k : Key) {msg : Msg} (h : Attests S msg) :
    Within (upholds own S) (send k msg) := by
  cases k with
  | num q => exact within_raise _
  | none => exact fun s => withinAt_emit (fun _ => h)
  | str x => exact fun s => withinAt_emit (fun _ => h)

theorem sendJoinTo_upholds (env : MemberEnv) (hops : Int) (k : Key) :
    Within (upholds own S) (sendJoinTo env hops k) := by
  exact fun s => withinAt_read_bind (send_upholds k (attests_other s _ (by decide)) s)

/-- A suspicion of a peer that the node has found silent. -/
theorem gossipSuspicion_upholds (env : MemberEnv) {k : Key} (hk : S (.str own) k) :
    Within (upholds own S) (gossipSuspicion env k) := by
  refine fun s => withinAt_read_bind (withinAt_of_still (fanout_still env _ s) (fun o ho hs => ?_))
  change Attests S o.msg
  rw [ho.1]
  refine fun _ => ⟨.str s.ourKey, .str s.ourKey, rfl, rfl, fun k' hk' => ?_⟩
  have hkey : hashKey k.toVal = .ok k' := hk'
  rw [hashKey_toVal] at hkey
  rw [hs.ours, ← Except.ok.inj hkey]
  exact hk

/-- The keys that are suspected, and returned, are those that are silent now. -/
theorem suspectSilent_finds {N : Key → Prop} (now limit : ℚ) (ks : List Key)
    (s : MembershipLayer) (hS : ∀ k ∈ ks, s.silent now limit k = true → S (.str own) k) :
    WithinAt (memberFrame own N (Supported own S)) (suspectSilent now limit ks) s ∧
      ∀ found, (suspectSilent now limit ks s).ret = .ok found → ∀ k ∈ found, S (.str own) k := by
  induction ks generalizing s with
  | nil =>
      refine ⟨within_pure [] s, fun found hret k hk => ?_⟩
      rw [← Except.ok.inj hret] at hk
      exact (List.not_mem_nil hk).elim
  | cons k ks ih =>
      have hself := hS k (List.mem_cons_self ..)
      unfold suspectSilent
      by_cases hk : s.silent now limit k = true
      · -- Marking one peer makes no other peer silent.
        have hrest := ih (setStatus .suspected k s) (fun k' hk' hs => by
          rw [silent_setStatus, Bool.and_eq_true] at hs
          exact hS k' (List.mem_cons_of_mem _ hk') hs.2)
        refine ⟨withinAt_read_bind ?_, fun found hret => ?_⟩
        · rw [if_pos hk]
          refine withinAt_bind (change_within (.suspect k) (hself hk) (fun _ h => by cases h) s
            (fun _ => aliveAt_of_silent hk)) (fun _ _ => ?_)
          refine withinAt_bind (logKey_within k _) (fun _ _ => ?_)
          rw [logKey_state]
          exact withinAt_bind hrest.1 (fun _ _ => within_pure _ _)
        · rw [read_bind, if_pos hk, modify_bind] at hret
          cases hlog : (logKey k (setStatus .suspected k s)).ret with
          | error e =>
              rw [bind_error hlog] at hret
              cases hret
          | ok u =>
              rw [bind_ok hlog] at hret
              simp only [logKey_state] at hret
              cases hloop : (suspectSilent now limit ks (setStatus .suspected k s)).ret with
              | error e =>
                  rw [bind_error hloop] at hret
                  cases hret
              | ok rest =>
                  rw [bind_ok hloop] at hret
                  rw [← Except.ok.inj hret]
                  intro k' hk'
                  rcases List.mem_cons.mp hk' with hkk | htail
                  · rw [hkk]
                    exact hself hk
                  · exact hrest.2 rest hloop k' htail
      · have hrest := ih s (fun k' hk' => hS k' (List.mem_cons_of_mem _ hk'))
        rw [WithinAt, read_bind, if_neg hk]
        exact hrest

theorem suspectSilent_upholds (now limit : ℚ) (ks : List Key) (s : MembershipLayer)
    (hS : ∀ k ∈ ks, s.silent now limit k = true → S (.str own) k) :
    WithinAt (upholds own S) (suspectSilent now limit ks) s :=
  withinAt_of_quiet (suspectSilent_quiet now limit ks s) (upholds_of_changes
    (suspectSilent_finds (N := fun _ => True) now limit ks s hS).1
    (fun _ o ho => ((suspectSilent_quiet now limit ks s).2 o ho).elim)).1

/-- A node of its own accord makes up no report either. -/
theorem beat_upholds (b : Beat) (s : MembershipLayer)
    (hS : ∀ k ∈ s.finds b, S (.str own) k) : WithinAt (upholds own S) b.act s := by
  cases b with
  | seed now peerKey =>
      have hquiet : Within quiet (addPeer now peerKey) := by
        refine fun s => withinAt_read_bind ?_
        split
        · exact discover_quiet now _ s
        · exact within_pure () s
      exact upholds_of_changes (addPeer_within (N := fun _ => True) now peerKey trivial trivial s)
        (fun _ o ho => ((hquiet s).2 o ho).elim)
  | join env =>
      exact withinAt_read_bind (within_each _ (fun k _ => sendJoinTo_upholds env _ k) s)
  | heartbeat env =>
      exact withinAt_read_bind (within_each _ (fun k _ =>
        send_upholds k (attests_other s _ (by decide))) s)
  | detect env =>
      refine withinAt_read_bind ?_
      have hsilent : ∀ k ∈ s.peers.keys, s.silent env.now s.suspectAfter k = true →
          S (.str own) k := fun k hk hs => hS k (List.mem_filter.mpr ⟨hk, hs⟩)
      refine withinAt_bind (suspectSilent_upholds _ _ _ s hsilent) (fun found hfound => ?_)
      exact within_each found (fun k hk => gossipSuspicion_upholds env
        ((suspectSilent_finds (N := fun _ => True) _ _ _ s hsilent).2 found hfound k hk)) _
  | sync env connectedKeys =>
      refine withinAt_read_bind ?_
      refine withinAt_bind (withinAt_modify (fun hs => grounded_apply (c := .connect connectedKeys)
        hs trivial trivial)) (fun _ _ => ?_)
      -- Keys that are discovered are connected, so none of them has dropped.
      have hpeers : ∀ k ∈ s.dropped connectedKeys,
          (each (discover env.now) (s.unknown connectedKeys)
            (connect connectedKeys s)).state.peers.get? k = s.peers.get? k := by
        intro k hk
        rw [get?_discoverAll env.now _ k (fun hc => ?_)]
        · rfl
        · rcases (mem_unknown s connectedKeys k).mp hc with ⟨x, hx, rfl, _⟩
          rcases List.mem_map.mp hk with ⟨y, hy, hxy⟩
          rw [Key.str.inj hxy] at hy
          exact of_decide_eq_true (List.mem_filter.mp hy).2 hx
      have hdiscover : WithinAt (upholds own S)
          (each (discover env.now) (s.unknown connectedKeys)) (connect connectedKeys s) := by
        have hquiet := within_each (F := quiet) (s.unknown connectedKeys)
          (fun k _ => discover_quiet env.now k) (connect connectedKeys s)
        refine withinAt_of_quiet hquiet (fun hs => ?_)
        refine grounded_of_changes ((within_each (F := memberFrame own (fun _ => True)
          (Supported own S)) _ (fun k hk => ?_) _).1 hs.ours) hs
        refine discover_within env.now k trivial trivial (fun hc => ?_)
        rcases (mem_unknown s connectedKeys k).mp hk with ⟨x, _, rfl, hne, _⟩
        exact hne ((Key.str.inj hc).trans hs.ours.symm)
      refine withinAt_bind hdiscover (fun _ _ => ?_)
      have hsilent : ∀ k ∈ s.dropped connectedKeys,
          (each (discover env.now) (s.unknown connectedKeys)
            (connect connectedKeys s)).state.silent env.now (s.suspectAfter / 2) k = true →
          S (.str own) k := by
        intro k hk hs
        rw [silent_congr (hpeers k hk)] at hs
        exact hS k (List.mem_filter.mpr ⟨hk, hs⟩)
      refine withinAt_bind (suspectSilent_upholds _ _ _ _ hsilent) (fun found hfound => ?_)
      refine within_bind (within_each _ (fun k _ => sendJoinTo_upholds env 1 k)) (fun _ => ?_) _
      exact within_each found (fun k hk => gossipSuspicion_upholds env
        ((suspectSilent_finds (N := fun _ => True) _ _ _ _ hsilent).2 found hfound k hk))

end Handlers

/-! ## The mesh -/

namespace Mesh

variable {ι : Type}

/-- Who finds whom silent at an event. -/
def findings (s : Mesh ι) : MeshEvent ι → List (Key × Key)
  | .beat i b => ((s.layers i).finds b).map (fun k => (.str (s.key i), k))
  | _ => []

/-- All that is suspected in the mesh has been found. -/
structure Upheld (s : Mesh ι) (found : List (Key × Key)) : Prop where
  layers : ∀ i, Grounded (s.key i) (fun r k => (r, k) ∈ found) (s.layers i)
  sent : ∀ o ∈ s.sent, Attests (fun r k => (r, k) ∈ found) o.msg

theorem Upheld.mono {s : Mesh ι} {found more : List (Key × Key)} (h : Upheld s found) :
    Upheld s (found ++ more) :=
  have himp : ∀ r k, (r, k) ∈ found → (r, k) ∈ found ++ more := fun _ _ =>
    List.mem_append_left _
  ⟨fun i => (h.layers i).mono himp, fun o ho => (h.sent o ho).mono himp⟩

variable [DecidableEq ι]

theorem perform_upheld {s : Mesh ι} {found : List (Key × Key)} (hs : Upheld s found) {i : ι}
    {x : Act Unit}
    (hx : WithinAt (upholds (s.key i) (fun r k => (r, k) ∈ found)) x (s.layers i)) :
    Upheld (s.perform i x) found := by
  have hnode := hx.1 (hs.layers i)
  refine ⟨fun j => ?_, fun o ho => ?_⟩
  · unfold Mesh.perform Mesh.key
    by_cases hj : j = i
    · simp only [hj, Function.update_self]
      rw [hnode.ours]
      exact hnode
    · simp only [Function.update_of_ne hj]
      exact hs.layers j
  · rcases List.mem_append.mp ho with ho | ho
    · exact hs.sent o ho
    · exact hx.2 o ho (hs.layers i)

theorem step_upheld {s s' : Mesh ι} {e : MeshEvent ι} {found : List (Key × Key)}
    (hs : Upheld s found) (h : s.step e = some s') : Upheld s' (found ++ s.findings e) := by
  have hmore : Upheld s (found ++ s.findings e) := hs.mono
  cases e with
  | beat i b =>
      rcases step_beat h with ⟨_, rfl⟩
      refine perform_upheld hmore (beat_upholds b (s.layers i) (fun k hk => ?_))
      exact List.mem_append_right _ (List.mem_map.mpr ⟨k, hk, rfl⟩)
  | deliver i n env fromPeer =>
      rcases step_deliver h with ⟨o, ho, _, _, rfl⟩
      exact perform_upheld hmore
        (handleMessage_upholds env fromPeer (hmore.sent o (List.mem_of_getElem? ho)) _)
  | stop i =>
      rw [step_stop h]
      exact ⟨hmore.layers, hmore.sent⟩
  | start i =>
      rcases step_start h with ⟨_, rfl⟩
      refine ⟨fun j => ?_, hmore.sent⟩
      unfold Mesh.key
      by_cases hj : j = i
      -- A new process suspects nobody.
      · simp only [hj, Function.update_self]
        exact grounded_fresh _ (s.layers i)
      · simp only [Function.update_of_ne hj]
        exact hmore.layers j

omit [DecidableEq ι] in
theorem upheld_initial {s : Mesh ι} (h : s.Initial) : Upheld s [] := by
  refine ⟨fun i => ?_, fun o ho => ?_⟩
  · unfold Mesh.key
    rw [h.1 i]
    exact grounded_fresh _ (s.layers i)
  · rw [h.2] at ho
    exact (List.not_mem_nil ho).elim

/-- In every run, a node that suspects a peer has found it silent itself, and for
    a peer that any node takes for dead there are two different nodes that have.
    So a peer that no node finds silent is alive wherever it is known. -/
theorem found_silent {s t : Mesh ι} {es : List (MeshEvent ι)} (hinit : s.Initial)
    (hrun : Machine.run step s es = some t) (i : ι) (k : Key) :
    ((t.layers i).statusAt k = some .suspected →
      (.str (t.key i), k) ∈ Machine.emitted step findings s es) ∧
    ((t.layers i).deadAt k → ∃ r r', r ≠ r' ∧ (r, k) ∈ Machine.emitted step findings s es ∧
      (r', k) ∈ Machine.emitted step findings s es) ∧
    ((∀ r, (r, k) ∉ Machine.emitted step findings s es) → (t.layers i).knows k →
      (t.layers i).aliveAt k) := by
  have h := Machine.invariant_emitted step findings Upheld (fun _ _ => True)
    (fun _ _ _ _ hs _ hstep => step_upheld hs hstep) (upheld_initial hinit)
    (Machine.along_of_forall step _ s es (fun _ _ _ => trivial)) hrun
  rw [List.nil_append] at h
  have hi := h.layers i
  refine ⟨hi.suspected k, hi.dead k, fun hnone hknows => ?_⟩
  cases hst : (t.layers i).statusAt k with
  | none => exact absurd hst hknows
  | some st =>
      cases st with
      | alive => exact hst
      | suspected => exact absurd (hi.suspected k hst) (hnone _)
      | dead =>
          rcases hi.dead k hst with ⟨r, _, _, hr, _⟩
          exact absurd hr (hnone r)

end Mesh

namespace Split

/-- Node `a` has marked node `c` dead, and two nodes had found it silent. -/
theorem two_found : ∃ t, Machine.run Mesh.step mesh history = some t ∧
    (t.layers 0).deadAt (.str (lit "c")) ∧
    ∃ r r', r ≠ r' ∧
      (r, .str (lit "c")) ∈ Machine.emitted Mesh.step Mesh.findings mesh history ∧
      (r', .str (lit "c")) ∈ Machine.emitted Mesh.step Mesh.findings mesh history := by
  have hrun : (Machine.run Mesh.step mesh history).map
      (fun t => decide ((t.layers 0).statusAt (.str (lit "c")) = some .dead)) = some true := by
    decide +kernel
  rcases Option.map_eq_some_iff.mp hrun with ⟨t, ht, hdead⟩
  have hc : (t.layers 0).deadAt (.str (lit "c")) := of_decide_eq_true hdead
  exact ⟨t, ht, hc, (Mesh.found_silent mesh_initial ht 0 _).2.1 hc⟩

end Split

end WhisperNet
