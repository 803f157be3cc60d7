import WhisperNet.Crypto.Reference
import WhisperNet.Lib.Branching
import WhisperNet.Membership.Outreach
import WhisperNet.Runtime.Node

/-!
# Gossip Floods

The copies of gossip messages in flight between nodes, and what becomes of them
when no node originates a message. A step delivers one copy to its receiver,
which may relay it, or loses one, or changes a node in any way that sends
nothing: its peer table, its ledger, what its caches have forgotten.

Deduplication is no part of the argument, as a cache that has forgotten an id
processes it again. What falls is the hop count: a delivery turns one copy into
at most three with one hop less, and none with no hops left. The copies are a
population whose rank is the hop count, so the library on branching bounds how
many descend from each.

## Main definitions

* `hopsOf`: The hops a copy has left.
* `Relays`: At most three copies of the message, with one hop less.
* `Copy`, `Flood`: The copies in flight, and a ghost list of those sent.
* `Flood.step`: The flood after an event.
* `Flood.start`: A flood of some messages, each marked with its position.

## Theorems

* `handleMessage_relays`, `handleLedgerUpdate_relays`: What the handlers send.
* `Flood.step_population`: A step is one of the population, or none.
* `Flood.run_population`: A run of the flood is one of the population.
* `floods_end`: How many sends a copy gives rise to, and that they end.
-/

namespace WhisperNet

open MembershipLayer TaskLedger WhisperNet.Action
open WhisperNode (isGossip)
open PyVal (get getD)

/-- The hop count of a message, zero where there is none. -/
def hopsOf (msg : Msg) : Nat :=
  match getD msg (lit "hops") (.int 0) with
  | .int h => h.toNat
  | _ => 0

/-- The hop count is an integer, or missing. -/
def IntHops (msg : Msg) : Prop := ∃ h, getD msg (lit "hops") (.int 0) = .int h

/-- At most three messages, each the given one with a hop less. -/
def Relays (msg : Msg) (out : List Send) : Prop :=
  out.length ≤ 3 ∧ ∀ o ∈ out, decHops msg = .ok (some o.msg)

theorem hopsOf_int {msg : Msg} {h : Int} (hh : getD msg (lit "hops") (.int 0) = .int h) :
    hopsOf msg = h.toNat := by
  unfold hopsOf
  rw [hh]

theorem relays_nil (msg : Msg) : Relays msg [] :=
  ⟨Nat.zero_le 3, fun _ ho => (List.not_mem_nil ho).elim⟩

/-- A relay has one hop less, and at least one. -/
theorem hopsOf_relay {msg relayed : Msg} (hint : IntHops msg)
    (h : decHops msg = .ok (some relayed)) :
    IntHops relayed ∧ 1 ≤ hopsOf relayed ∧ hopsOf relayed + 1 = hopsOf msg := by
  rcases hint with ⟨n, hn⟩
  unfold decHops at h
  rw [hn] at h
  by_cases hpos : n - 1 > 0
  · simp only [if_pos hpos, Except.ok.injEq, Option.some.injEq] at h
    have hget : getD relayed (lit "hops") (.int 0) = .int (n - 1) := by
      unfold PyVal.getD
      rw [← h, lookup_assign_self]
      rfl
    rw [hopsOf_int hget, hopsOf_int hn]
    exact ⟨⟨_, hget⟩, by omega, by omega⟩
  · simp only [if_neg hpos, Except.ok.injEq, reduceCtorEq] at h

/-! ## What the handlers send -/

theorem length_send_le (k : Key) (msg : Msg) (s : MembershipLayer) :
    (send k msg s).out.length ≤ 1 := by
  cases k with
  | num q => exact Nat.zero_le 1
  | none => exact Nat.le_refl 1
  | str x => exact Nat.le_refl 1

theorem fanout_relays (env : MemberEnv) {msg relayed : Msg} (h : decHops msg = .ok (some relayed))
    (s : MembershipLayer) : Relays msg (fanout env relayed s).out := by
  refine ⟨?_, fun o ho => ?_⟩
  · -- The targets are cut off after three.
    refine (length_each_le (fun k t => length_send_le k relayed t) _ s).trans ?_
    rw [List.length_take]
    exact Nat.min_le_left _ _
  · rw [((fanout_still env relayed s).2 o ho).1]
    exact h

theorem forward_relays (env : MemberEnv) (msg : Msg) : Hands (Relays msg) (forward env msg) := by
  intro s
  unfold forward
  cases hdec : decHops msg with
  | error e => exact relays_nil msg
  | ok r =>
      cases r with
      | none => exact relays_nil msg
      | some relayed => exact fanout_relays env hdec s

theorem adopt_quiet {α : Type} (k : Key) (v : PyVal) (given : Bool)
    (convert : PyVal → Except PyErr α) (store : α → PeerInfo → PeerInfo) :
    Within quiet (adopt k v given convert store) := by
  unfold adopt
  cases given with
  | false => exact within_pure ()
  | true =>
      rw [if_pos rfl]
      exact within_bind (within_attempt _) (fun _ => quiet_modify _)

theorem revive_quiet (k : Key) : Within quiet (revive k) := by
  refine fun s => withinAt_read_bind ?_
  cases s.peers.get? k with
  | none => exact within_pure () s
  | some p =>
      by_cases hst : p.status ≠ .alive
      · simp only [if_pos hst]
        exact within_bind (quiet_modify _) (fun _ => logKey_quiet k) s
      · simp only [if_neg hst]
        exact within_pure () s

theorem absorb_quiet (now : ℚ) (p : PyVal) : Within quiet (absorb now p) := by
  refine within_bind_attempt (fun k _ s => withinAt_read_bind ?_)
  split
  · exact discover_quiet now k s
  · exact within_pure () s

theorem onNodeJoin_relays (env : MemberEnv) (msg : Msg) :
    Hands (Relays msg) (onNodeJoin env msg) := by
  have hnil := relays_nil msg
  refine hands_read_bind (fun s => ?_)
  split
  · refine hands_bind hnil (within_attempt _) (fun k => ?_) s
    refine hands_bind hnil (discover_quiet env.now k) (fun _ => ?_)
    refine hands_bind hnil (quiet_modify _) (fun _ => ?_)
    refine hands_bind hnil (revive_quiet k) (fun _ => ?_)
    refine hands_bind hnil (adopt_quiet k _ _ _ _) (fun _ => ?_)
    refine hands_bind hnil (adopt_quiet k _ _ _ _) (fun _ => ?_)
    refine hands_bind hnil (adopt_quiet k _ _ _ _) (fun _ => ?_)
    refine hands_bind hnil (adopt_quiet k _ _ _ _) (fun _ => ?_)
    exact forward_relays env msg
  · exact hnil

theorem onHeartbeat_relays (env : MemberEnv) (msg : Msg) :
    Hands (Relays msg) (onHeartbeat env msg) := by
  have hnil := relays_nil msg
  refine hands_read_bind (fun s => ?_)
  split
  · refine hands_bind hnil (within_attempt _) (fun k => ?_) s
    refine hands_bind hnil (discover_quiet env.now k) (fun _ => ?_)
    refine hands_bind hnil (quiet_modify _) (fun _ => ?_)
    refine hands_bind hnil (quiet_modify _) (fun _ => ?_)
    refine hands_bind hnil (adopt_quiet k _ _ _ _) (fun _ => ?_)
    refine hands_bind hnil (adopt_quiet k _ _ _ _) (fun _ => ?_)
    refine hands_bind hnil (adopt_quiet k _ _ _ _) (fun _ => ?_)
    refine hands_bind hnil (adopt_quiet k _ _ _ _) (fun _ => ?_)
    refine hands_bind hnil (adopt_quiet k _ _ _ _) (fun _ => ?_)
    refine hands_bind hnil (revive_quiet k) (fun _ => ?_)
    refine hands_bind hnil (within_attempt _) (fun known => ?_)
    refine hands_bind hnil (within_each known (fun p _ => absorb_quiet env.now p)) (fun _ => ?_)
    exact forward_relays env msg
  · exact hnil

theorem onSuspicion_relays (env : MemberEnv) (fromPeer : PyVal) (msg : Msg) :
    Hands (Relays msg) (onSuspicion env fromPeer msg) := by
  have hnil := relays_nil msg
  refine hands_read_bind (fun s => ?_)
  split
  · refine hands_bind hnil (within_attempt _) (fun k => ?_) s
    refine hands_bind hnil (within_attempt _) (fun stale => ?_)
    cases stale with
    | true => exact hands_pure hnil ()
    | false =>
        refine hands_bind hnil (quiet_modify _) (fun _ => ?_)
        refine hands_bind hnil (within_attempt _) (fun r => ?_)
        refine hands_bind hnil (quiet_modify _) (fun _ => hands_read_bind (fun t => ?_))
        split
        · refine hands_bind hnil (quiet_modify _) (fun _ => ?_) t
          exact hands_bind hnil (logKey_quiet k) (fun _ => forward_relays env msg)
        · exact forward_relays env msg t
  · exact hnil

theorem handleMessage_relays (env : MemberEnv) (fromPeer : PyVal) (msg : Msg) :
    Hands (Relays msg) (handleMessage env fromPeer msg) := by
  have hnil := relays_nil msg
  refine hands_read_bind (fun s => ?_)
  split
  · refine hands_bind hnil (quiet_modify _) (fun _ => ?_) s
    dsimp only
    split
    · exact onHeartbeat_relays env msg
    · split
      · exact onSuspicion_relays env fromPeer msg
      · split
        · exact onNodeJoin_relays env msg
        · exact hands_pure hnil ()
  · exact hnil

/-- The relay of the ledger is the one of the membership layer. -/
theorem relay_eq (msg : Msg) : relay msg = (decHops msg).map (fun r =>
    match r with
    | some relayed => [.relay relayed]
    | none => []) := by
  unfold relay decHops
  cases getD msg (lit "hops") (.int 0) with
  | int h =>
      by_cases hh : h - 1 > 0
      · simp only [if_pos hh, Except.map]
      · simp only [if_neg hh, Except.map]
  | float q =>
      by_cases hq : q - 1 > 0
      · simp only [if_pos hq, Except.map]
      · simp only [if_neg hq, Except.map]
  | bool b => rfl
  | none => rfl
  | str x => rfl
  | list xs => rfl
  | dict kvs => rfl

/-- An update sends nothing of its own, and is relayed at most once. -/
theorem handleLedgerUpdate_out (P : Primitives) (L : TaskLedger) (msg : Msg) :
    (L.handleLedgerUpdate P msg).out = [] ∨
      ∃ relayed, decHops msg = .ok (some relayed) ∧
        (L.handleLedgerUpdate P msg).out = [.relay relayed] := by
  -- Only the merge sends, and it sends one relay at most.
  have hmerge : ∀ (L : TaskLedger) key incoming, (L.mergeTask msg key incoming).out = [] ∨
      ∃ relayed, decHops msg = .ok (some relayed) ∧
        (L.mergeTask msg key incoming).out = [.relay relayed] := by
    intro L key incoming
    unfold mergeTask
    split
    · exact Or.inl rfl
    · exact Or.inl rfl
    · split
      · rw [relay_eq]
        cases hdec : decHops msg with
        | error e => exact Or.inl rfl
        | ok r =>
            cases r with
            | none => exact Or.inl rfl
            | some relayed => exact Or.inr ⟨relayed, rfl, rfl⟩
      · exact Or.inl rfl
  unfold handleLedgerUpdate
  split
  · exact Or.inl rfl
  · unfold handleFresh
    split
    · exact Or.inl rfl
    · split
      · exact Or.inl rfl
      · split
        · split
          · exact Or.inl rfl
          · split
            · exact Or.inl rfl
            · exact hmerge _ _ _
        · exact Or.inl rfl

theorem handleLedgerUpdate_relays (P : Primitives) (env : NodeEnv) (M : MembershipLayer)
    (L L' : TaskLedger) (msg : Msg) :
    Relays msg (transmit P env M L' (L.handleLedgerUpdate P msg).out) := by
  rcases handleLedgerUpdate_out P L msg with h | ⟨relayed, hdec, h⟩
  · rw [h]
    exact relays_nil msg
  · rw [h, transmit]
    have hfan := fanout_relays env.member hdec M
    split
    · rw [transmit, List.append_nil]
      exact hfan
    · exact hfan

theorem receive_relays (P : Primitives) (s : WhisperNode) (env : NodeEnv) (fromPeer : PyVal)
    (msg : Msg) (hkind : isGossip msg = true) : Relays msg (s.receive P env fromPeer msg).2 := by
  unfold WhisperNode.receive
  by_cases hm : WhisperNode.isMembership msg = true
  · rw [if_pos hm]
    exact handleMessage_relays env.member fromPeer msg s.membership
  · rw [if_neg hm]
    rw [isGossip, Bool.or_eq_true] at hkind
    rw [if_pos (hkind.resolve_left hm)]
    exact handleLedgerUpdate_relays P env s.membership s.ledger _ msg

/-! ## Floods -/

/-- A message in flight. `origin` is ghost: the position of the message that it
    descends from. -/
structure Copy where
  origin : Nat
  dest : Key
  msg : Msg

/-- The mark and the rank of a copy: its origin and its hops. -/
def Copy.member (c : Copy) : Nat × Nat := (c.origin, hopsOf c.msg)

/-- The nodes and the copies in flight. `sent` is ghost: the origin of every copy
    sent so far. -/
structure Flood (ι : Type) where
  nodes : ι → WhisperNode
  flight : List Copy
  sent : List Nat

/-- `deliver i n` hands node `i` the `n`-th copy in flight; `change i s` is any
    change at a node that sends nothing. -/
inductive FloodEvent (ι : Type)
  | deliver (i : ι) (n : Nat) (env : NodeEnv) (fromPeer : PyVal)
  | lose (n : Nat)
  | change (i : ι) (s : WhisperNode)

namespace Flood

variable {ι : Type}

/-- Nodes in any state with some messages in flight. -/
def start (nodes : ι → WhisperNode) (copies : List Send) : Flood ι where
  nodes := nodes
  flight := copies.zipIdx.map (fun c => ⟨c.2, c.1.dest, c.1.msg⟩)
  sent := []

def population (s : Flood ι) : Branching.Population Nat where
  alive := s.flight.map Copy.member
  births := s.sent

/-- Every hop count in flight is an integer, or missing. -/
def IntFlight (s : Flood ι) : Prop := ∀ c ∈ s.flight, IntHops c.msg

theorem start_intFlight (nodes : ι → WhisperNode) (copies : List Send)
    (hint : ∀ c ∈ copies, IntHops c.msg) : (start nodes copies).IntFlight := by
  intro c hc
  rcases List.mem_map.mp hc with ⟨e, he, hec⟩
  rw [← hec]
  exact hint e.1 (List.fst_mem_of_mem_zipIdx he)

/-- Of a list marked with positions, a sum over one mark has one term. -/
theorem sum_zipIdx {α : Type} (g : α → Nat) (l : List α) (k m : Nat) :
    ((l.zipIdx k).map (fun c => if c.2 == k + m then g c.1 else 0)).sum =
      (l[m]?.map g).getD 0 := by
  induction l generalizing k m with
  | nil => rfl
  | cons a l ih =>
      rw [List.zipIdx_cons, List.map_cons, List.sum_cons]
      cases m with
      | zero =>
          -- The later positions do not have this mark.
          have hzero : ((l.zipIdx (k + 1)).map
              (fun c => if c.2 == k + 0 then g c.1 else 0)).sum = 0 := by
            refine List.sum_eq_zero (fun v hv => ?_)
            rcases List.mem_map.mp hv with ⟨c, hc, hcv⟩
            have hle := List.le_snd_of_mem_zipIdx hc
            have hne : ¬ (c.2 == k + 0) = true := by
              rw [beq_iff_eq]
              omega
            rw [← hcv, if_neg hne]
          rw [hzero]
          simp only [Nat.add_zero, BEq.rfl, if_true, List.getElem?_cons_zero, Option.map_some,
            Option.getD_some]
      | succ m =>
          have hne : ¬ (k == k + (m + 1)) = true := by
            rw [beq_iff_eq]
            omega
          have hshift : k + (m + 1) = (k + 1) + m := by omega
          rw [if_neg hne, Nat.zero_add, hshift, ih (k + 1) m, List.getElem?_cons_succ]

/-- At the start, only the copy at a position can cause sends with its mark. -/
theorem potential_start (nodes : ι → WhisperNode) (copies : List Send) {n : Nat} {c : Send}
    (hn : copies[n]? = some c) :
    Branching.potential 3 (fun m => m == n) (start nodes copies).population.alive =
      ∑ k ∈ Finset.Ico 1 (hopsOf c.msg), 3 ^ k := by
  have hsum := sum_zipIdx (fun c : Send => Branching.descendants 3 (hopsOf c.msg)) copies 0 n
  rw [hn, Nat.zero_add] at hsum
  rw [← Branching.descendants_eq, Branching.potential]
  simp only [population, start, List.map_map]
  exact hsum

variable [DecidableEq ι]

def step (P : Primitives) (s : Flood ι) : FloodEvent ι → Option (Flood ι)
  | .deliver i n env fromPeer =>
    match s.flight[n]? with
    | none => none
    | some c =>
      if isGossip c.msg ∧ c.dest = .str (s.nodes i).membership.ourKey then
        let r := (s.nodes i).receive P env fromPeer c.msg
        some
          { nodes := Function.update s.nodes i r.1
            flight := s.flight.eraseIdx n ++ r.2.map (fun o => ⟨c.origin, o.dest, o.msg⟩)
            sent := s.sent ++ r.2.map (fun _ => c.origin) }
      else none
  | .lose n => if n < s.flight.length then some { s with flight := s.flight.eraseIdx n } else none
  | .change i node => some { s with nodes := Function.update s.nodes i node }

theorem step_deliver {P : Primitives} {s s' : Flood ι} {i : ι} {n : Nat} {env : NodeEnv}
    {fromPeer : PyVal} (h : s.step P (.deliver i n env fromPeer) = some s') :
    ∃ c, s.flight[n]? = some c ∧ isGossip c.msg = true ∧
      s'.flight = s.flight.eraseIdx n ++ ((s.nodes i).receive P env fromPeer c.msg).2.map
        (fun o => ⟨c.origin, o.dest, o.msg⟩) ∧
      s'.sent = s.sent ++ ((s.nodes i).receive P env fromPeer c.msg).2.map
        (fun _ => c.origin) := by
  simp only [step] at h
  cases hn : s.flight[n]? with
  | none =>
      rw [hn] at h
      exact (nomatch h)
  | some c =>
      simp only [hn] at h
      by_cases hc : isGossip c.msg = true ∧ c.dest = .str (s.nodes i).membership.ourKey
      · rw [if_pos hc, Option.some.injEq] at h
        rw [← h]
        exact ⟨c, rfl, hc.1, rfl, rfl⟩
      · rw [if_neg hc] at h
        exact (nomatch h)

/-- The population around the copy at a position, and without it. -/
theorem alive_split (flight : List Copy) {n : Nat} {c : Copy} (hn : flight[n]? = some c) :
    flight.map Copy.member = (flight.take n).map Copy.member ++
        c.member :: (flight.drop (n + 1)).map Copy.member ∧
      (flight.eraseIdx n).map Copy.member =
        (flight.take n).map Copy.member ++ (flight.drop (n + 1)).map Copy.member := by
  rcases List.getElem?_eq_some_iff.mp hn with ⟨hlt, hget⟩
  constructor
  · rw [← List.map_cons, ← List.map_append, ← hget, List.getElem_cons_drop hlt,
      List.take_append_drop]
  · rw [List.eraseIdx_eq_take_drop_succ, List.map_append]

/-- A step removes one copy for its relays, or none. -/
theorem step_population {P : Primitives} {s s' : Flood ι} {e : FloodEvent ι} (hs : s.IntFlight)
    (h : s.step P e = some s') :
    s'.IntFlight ∧ (s.population.Step 3 s'.population ∨ s'.population = s.population) := by
  cases e with
  | deliver i n env fromPeer =>
      rcases step_deliver h with ⟨c, hn, hkind, hflight, hsent⟩
      have hmem := List.mem_of_getElem? hn
      rcases receive_relays P (s.nodes i) env fromPeer c.msg hkind with ⟨hlen, hrelay⟩
      have hhops : ∀ o ∈ ((s.nodes i).receive P env fromPeer c.msg).2, IntHops o.msg ∧
          1 ≤ hopsOf o.msg ∧ hopsOf o.msg + 1 = hopsOf c.msg := fun o ho =>
        hopsOf_relay (hs c hmem) (hrelay o ho)
      constructor
      · intro c' hc'
        rw [hflight] at hc'
        rcases List.mem_append.mp hc' with hold | hnew
        · exact hs c' (List.mem_of_mem_eraseIdx hold)
        · rcases List.mem_map.mp hnew with ⟨o, ho, hoc⟩
          rw [← hoc]
          exact (hhops o ho).1
      · left
        -- The copy delivered is the member that is replaced.
        rcases alive_split s.flight hn with ⟨hsplit, hrest⟩
        refine ⟨_, c.member, _,
          ((s.nodes i).receive P env fromPeer c.msg).2.map (fun o => (c.origin, hopsOf o.msg)),
          hsplit, ?_, ?_, ?_, ?_⟩
        · simp only [population]
          rw [hflight, List.map_append, hrest, List.map_map]
          rfl
        · rw [List.length_map]
          exact hlen
        · intro k hk
          rcases List.mem_map.mp hk with ⟨o, ho, hok⟩
          rw [← hok]
          exact ⟨rfl, (hhops o ho).2⟩
        · simp only [population]
          rw [hsent, List.map_map]
          rfl
  | lose n =>
      simp only [step] at h
      by_cases hlt : n < s.flight.length
      · rw [if_pos hlt, Option.some.injEq] at h
        rw [← h]
        refine ⟨fun c hc => hs c (List.mem_of_mem_eraseIdx hc), Or.inl ?_⟩
        rcases alive_split s.flight (List.getElem?_eq_getElem hlt) with ⟨hsplit, hrest⟩
        refine ⟨_, s.flight[n].member, _, [], hsplit, ?_, Nat.zero_le 3,
          fun k hk => (List.not_mem_nil hk).elim, ?_⟩
        · rw [List.append_nil]
          exact hrest
        · rw [List.map_nil, List.append_nil]
          rfl
      · rw [if_neg hlt] at h
        exact (nomatch h)
  | change i node =>
      rw [← Option.some.inj h]
      exact ⟨hs, Or.inr rfl⟩

/-- A run of the flood is one of its population. -/
theorem run_population {P : Primitives} {s t : Flood ι} {es : List (FloodEvent ι)}
    (hs : s.IntFlight) (hrun : Machine.run (Flood.step P) s es = some t) :
    t.IntFlight ∧
      Relation.ReflTransGen (Branching.Population.Step 3) s.population t.population := by
  refine Machine.invariant_run (Flood.step P) (fun u => u.IntFlight ∧
    Relation.ReflTransGen (Branching.Population.Step 3) s.population u.population)
    (fun _ _ => True) ?_ ⟨hs, Relation.ReflTransGen.refl⟩
    (Machine.along_of_forall _ _ _ _ (fun _ _ _ => trivial)) hrun
  intro u e u' hu _ hstep
  rcases step_population hu.1 hstep with ⟨hint, hpop⟩
  refine ⟨hint, ?_⟩
  rcases hpop with hpop | hpop
  · exact hu.2.tail hpop
  · rw [hpop]
    exact hu.2

theorem step_sent {P : Primitives} {s s' : Flood ι} {e : FloodEvent ι} (hs : s.IntFlight)
    (h : s.step P e = some s') : s.sent <+: s'.sent := by
  rcases (step_population hs h).2 with ⟨_, _, _, kids, _, _, _, _, hbirths⟩ | hsame
  · exact ⟨_, hbirths.symm⟩
  · exact ⟨[], by rw [List.append_nil]; exact (congrArg Branching.Population.births hsame).symm⟩

end Flood

/-- A copy in flight gives rise to at most `3 + 3 ^ 2 + ... + 3 ^ (h - 1)` sends,
    to none with less than two hops, and in an endless run the sends stop. -/
theorem floods_end {ι : Type} [DecidableEq ι] (P : Primitives) (nodes : ι → WhisperNode)
    (copies : List Send) (hint : ∀ c ∈ copies, IntHops c.msg) :
    (∀ es t, Machine.run (Flood.step P) (Flood.start nodes copies) es = some t →
      ∀ n c, copies[n]? = some c →
        t.sent.count n ≤ ∑ k ∈ Finset.Ico 1 (hopsOf c.msg), 3 ^ k ∧
          (hopsOf c.msg < 2 → n ∉ t.sent)) ∧
    ∀ (run : Nat → Flood ι) (events : Nat → FloodEvent ι), run 0 = Flood.start nodes copies →
      (∀ n, (run n).step P (events n) = some (run (n + 1))) →
        ∃ N, ∀ n ≥ N, (run n).sent = (run N).sent := by
  have hstart := Flood.start_intFlight nodes copies hint
  constructor
  · intro es t hrun n c hn
    have hborn := Branching.born_le (Flood.run_population hstart hrun).2 (fun m => m == n)
    rw [Flood.potential_start nodes copies hn] at hborn
    have hzero : Branching.born (fun m => m == n) (Flood.start nodes copies).population.births =
        0 := rfl
    have hcount : t.sent.count n ≤ ∑ k ∈ Finset.Ico 1 (hopsOf c.msg), 3 ^ k := by
      have hdef : Branching.born (fun m => m == n) t.population.births = t.sent.count n := rfl
      omega
    refine ⟨hcount, fun hfew => ?_⟩
    rw [Finset.Ico_eq_empty (by omega), Finset.sum_empty] at hcount
    exact List.count_eq_zero.mp (Nat.le_zero.mp hcount)
  · intro run events hzero hsteps
    have hall : ∀ n, (run n).IntFlight ∧ Branching.born (fun _ => true) (run n).sent +
        Branching.potential 3 (fun _ => true) (run n).population.alive ≤
          Branching.potential 3 (fun _ => true) (run 0).population.alive := by
      intro n
      induction n with
      | zero =>
          rw [hzero]
          exact ⟨hstart, by rw [show (Flood.start nodes copies).sent = [] from rfl]; exact
            (Nat.zero_add _).le⟩
      | succ n ih =>
          rcases Flood.step_population ih.1 (hsteps n) with ⟨hint', hpop⟩
          refine ⟨hint', ?_⟩
          rcases hpop with hpop | hpop
          · exact (Branching.step_potential hpop (fun _ => true)).trans ih.2
          · have hsent : (run (n + 1)).sent = (run n).sent :=
              congrArg Branching.Population.births hpop
            rw [hsent, hpop]
            exact ih.2
    have hlen : ∀ n, (run n).sent.length = Branching.born (fun _ => true) (run n).sent :=
      fun n => by
      rw [Branching.born, List.countP_true]
    have hgrows : ∀ n, (run n).sent <+: (run (n + 1)).sent := fun n =>
      Flood.step_sent (hall n).1 (hsteps n)
    rcases Branching.eventually_const (fun n => (run n).sent.length)
      (Branching.potential 3 (fun _ => true) (run 0).population.alive)
      (fun n => (hgrows n).length_le) (fun n => by have := (hall n).2; have := hlen n; omega) with
      ⟨N, hN⟩
    refine ⟨N, fun n hn => ?_⟩
    -- A list that only grows at its end and keeps its length stays the same.
    have hextends : (run N).sent <+: (run n).sent := by
      induction n, hn using Nat.le_induction with
      | base => exact List.prefix_refl _
      | succ m _ ih => exact ih.trans (hgrows m)
    exact (hextends.eq_of_length (hN n hn).symm).symm

namespace Flood

-- Named, so that no literal carries a proof of its own.
theorem neZero_two : NeZero 2 := ⟨by decide⟩

attribute [local instance] neZero_two

/-- Node `a` knows `b` and `c`; node `b` knows no one. -/
def pair (i : Fin 2) : WhisperNode where
  membership :=
    { ourKey := if i = 0 then lit "a" else lit "b"
      peers := if i = 0 then
          (Dict.empty.set (.str (lit "b")) { lastSeen := 0 }).set (.str (lit "c")) { lastSeen := 0 }
        else Dict.empty }
  ledger := { ourKey := if i = 0 then lit "a" else lit "b" }
  runtime := { shardId := 1 }

/-- A join of `b` with two hops left. -/
def joined : List Send :=
  [⟨.str (lit "a"),
    [(lit "type", .str (lit "node_join")), (lit "msg_id", .str (lit "1")),
     (lit "from", .str (lit "b")), (lit "hops", .int 2)]⟩]

def env : NodeEnv where
  member := MemberEnv.plain
  uuid := lit "id"
  thresholdRand := SubmitEnv.plain.thresholdRand
  payloadRand := SubmitEnv.plain.payloadRand

def delivery : List (FloodEvent (Fin 2)) := [.deliver 0 0 env (.str (lit "b"))]

/-- Node `a` relays the join twice, which is within the bound of three. -/
theorem joined_end : ∃ t,
    Machine.run (Flood.step reference) (start pair joined) delivery = some t ∧
      t.sent = [0, 0] ∧ t.sent.count 0 ≤ 3 := by
  have hrun : (Machine.run (Flood.step reference) (start pair joined) delivery).map Flood.sent =
      some [0, 0] := by decide +kernel
  rcases Option.map_eq_some_iff.mp hrun with ⟨t, ht, hsent⟩
  refine ⟨t, ht, hsent, ?_⟩
  have hint : ∀ c ∈ joined, IntHops c.msg := fun c hc => by
    rw [List.mem_singleton.mp hc]
    exact ⟨2, rfl⟩
  exact (((floods_end reference pair joined hint).1 delivery t ht 0 _ rfl).1).trans (by decide)

end Flood

end WhisperNet
