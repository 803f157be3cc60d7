import WhisperNet.Cluster.Leases
import WhisperNet.Crypto.Reference
import WhisperNet.Ledger.Atomicity

/-!
# Lease Durations That Are None

A heartbeat is taken at its word: any duration that is not zero is kept as what
the peer reported. A convergence tick adopts the least of what was reported and the
node's own, and a negative number is less than any duration. From then on a claim
writes a lease that has run out before it starts. A duration of a nanosecond does
the same, as a float that counts seconds since 1970 stays what it is when so little
is added.

The tick adopts only what differs by more than a tenth, and never divides by less
than a tenth. So `SafeTick` is exact with one allowance: a duration that is none
does no harm as long as it is not far from the node's own.

## Main definitions

* `Reading`: A time that the clock shows.
* `Noticed`: Added to the time, the duration gives a later one.
* `LeasesAhead`: Leases end after they are made.
* `WhisperNode.Counts`: A duration that a tick takes into account.
* `SafeTick`: No tick adopts a duration that is none.
* `Truthful`: A heartbeat that arrives tells no such duration.

## Theorems

* `noticed_of_le`: A duration that is not too short for the clock.
* `leasesAhead_iff`: Leases end after they are made if the duration is noticed.
* `converge_noticed_iff`: When a tick leaves it so.
* `leases_ahead_iff`: When it stays so over a run.
* `along_safeTick`: Over a run with truthful heartbeats it does.
-/

namespace WhisperNet

open MembershipLayer TaskLedger WhisperNode
open PyVal (get)

/-! ## Leases that end after they are made -/

/-- What `time.time()` returns up to a time `T`. -/
structure Reading (T now : ℚ) : Prop where
  float : double now = now
  nonneg : 0 ≤ now
  le : now ≤ T

/-- The sum of a clock reading and the duration, as floats are added, is later. -/
def Noticed (T d : ℚ) : Prop := ∀ now, Reading T now → now < double (now + d)

/-- The record has a lease that ends later than now. The sum in it is the one that
    the program rounds. -/
def EndsAfter (L : TaskLedger) (taskId : PyStr) (now : ℚ) : Prop :=
  ∃ task e, L.find? taskId = some task ∧ task.leaseExpires = .float e ∧ now < double e

/-- The duration is positive, and whatever records a ledger with it holds, every
    claim and renewal that succeeds writes a lease that ends later. -/
structure LeasesAhead (T d : ℚ) : Prop where
  positive : 0 < d
  claim : ∀ (L : TaskLedger) taskId now, L.leaseDuration = d → Reading T now →
    (L.claimTask taskId now).ret = .ok true → EndsAfter (L.claimTask taskId now).ledger taskId now
  renew : ∀ (L : TaskLedger) taskId now, L.leaseDuration = d → Reading T now →
    (L.renewLease taskId now).ret = .ok true → EndsAfter (L.renewLease taskId now).ledger taskId now

theorem Noticed.mono {T d d' : ℚ} (h : Noticed T d) (hle : d ≤ d') : Noticed T d' :=
  fun now hnow => (h now hnow).trans_le (double_mono (by linarith))

theorem Noticed.pos {T d : ℚ} (hT : 0 ≤ T) (h : Noticed T d) : 0 < d := by
  have hzero : Reading T 0 := ⟨double_zero, le_rfl, hT⟩
  by_contra hd
  have hle : double (0 + d) ≤ double 0 := double_mono (by linarith)
  rw [double_zero] at hle
  exact absurd (h 0 hzero) (not_lt.mpr hle)

/-- What the clock can show up to `T` does not swallow a part in two to the 51 of it. -/
theorem noticed_of_le {T d : ℚ} (hone : 1 ≤ T) (hT : T ≤ 2 ^ 100) (hd : T / 2 ^ 51 ≤ d) :
    Noticed T d := by
  intro now hnow
  have hlow := hnow.nonneg
  have hhigh := hnow.le
  have habs : |now + T / 2 ^ 51| = now + T / 2 ^ 51 := abs_of_nonneg (by linarith)
  have hsmall : |now + T / 2 ^ 51| ≤ 2 ^ 200 := by
    rw [habs]
    have hpow : (2 : ℚ) ^ 101 ≤ 2 ^ 200 := pow_le_pow_right₀ (by norm_num) (by norm_num)
    linarith
  -- The rounding takes back less than half of what is added.
  have herror := (abs_le.mp (double_error hsmall)).1
  rw [habs] at herror
  have hlater : now < double (now + T / 2 ^ 51) := by linarith
  exact hlater.trans_le (double_mono (by linarith))

theorem endsAfter_of_wrote {L : TaskLedger} {o : Outcome Bool} {taskId : PyStr} {old new : Task}
    {T now : ℚ} (hd : Noticed T L.leaseDuration) (hnow : Reading T now)
    (hw : L.Wrote o taskId old new)
    (hnew : new.leaseExpires = .float (now + L.leaseDuration)) : EndsAfter o.ledger taskId now := by
  refine ⟨new, now + L.leaseDuration, ?_, hnew, hd now hnow⟩
  rw [find?, hw.tasks, Dict.get?_set_self]

/-- A ledger with one task that nobody has claimed. -/
def offering (d : ℚ) : TaskLedger where
  ourKey := lit "a"
  leaseDuration := d
  tasks := Dict.empty.set (.str (lit "t"))
    { taskId := .str (lit "t"), payload := .none, shardId := .none, status := .pending
      leasedBy := .none, leaseExpires := .none, result := .none, createdAt := .none }

theorem leasesAhead_iff {T : ℚ} (hT : 0 ≤ T) (d : ℚ) : LeasesAhead T d ↔ Noticed T d := by
  constructor
  · intro h now hnow
    -- Some ledger has a task to claim.
    have hencodable : (lit "a" ++ lit "t").any isSurrogate = false := by decide
    have hok : ((offering d).claimTask (lit "t") now).ret = .ok true :=
      (claimTask_true_iff _ _ _).mpr ⟨_, Dict.get?_set_self _ _ _,
        ⟨(fun hc => by cases hc), (fun hc => by cases hc)⟩, hencodable, rfl⟩
    rcases h.claim (offering d) (lit "t") now rfl hnow hok with ⟨task, e, hf, he, hlt⟩
    rcases (offering d).claimTask_cases (lit "t") now with
      hidle | ⟨_, new, hw, _, _, _, _, _, hnew⟩
    · exact (hidle.ret hok).elim
    · rw [find?, hw.tasks, Dict.get?_set_self, Option.some.injEq] at hf
      rw [← hf, hnew, PyVal.float.injEq] at he
      rw [← he] at hlt
      exact hlt
  · refine fun h => ⟨h.pos hT, fun L taskId now hd hnow hok => ?_,
      fun L taskId now hd hnow hok => ?_⟩
    · -- A call that returns true has written the lease.
      rcases L.claimTask_cases taskId now with hidle | ⟨_, _, hw, _, _, _, _, _, hnew⟩
      · exact (hidle.ret hok).elim
      · exact endsAfter_of_wrote (by rw [hd]; exact h) hnow hw hnew
    · rcases L.renewLease_cases taskId now with hidle | ⟨_, _, hw, _, _, _, _, hnew⟩
      · exact (hidle.ret hok).elim
      · exact endsAfter_of_wrote (by rw [hd]; exact h) hnow hw hnew

/-! ## What a tick adopts -/

/-- A duration that a convergence tick takes into account: the node's own, or one that
    a peer which is not dead has reported. If the first of those is NaN, none does. -/
def WhisperNode.Counts (s : WhisperNode) (d : ℚ) : Prop :=
  s.membership.durations.head? ≠ some .nan ∧
    (d = s.membership.ourLeaseDuration ∨ .num d ∈ s.membership.durations)

/-- A tick takes no duration into account that is none, unless it is not far enough
    from the node's own to be adopted. -/
def SafeTick (T : ℚ) (s : WhisperNode) (e : NodeEvent) : Prop :=
  e = .converge → ∀ d, s.Counts d → Noticed T d ∨ farFrom s.ledger.leaseDuration d = false

/-- The consensus is the least of the durations that count. -/
theorem counts_consensus {s : WhisperNode} {c : ℚ}
    (hc : s.membership.getConsensusLeaseDuration = .num c) : s.Counts c := by
  refine ⟨fun hnan => ?_, consensus_num hc⟩
  rw [consensus_nan hnan] at hc
  cases hc

theorem consensus_le_counts {s : WhisperNode} {c d : ℚ}
    (hc : s.membership.getConsensusLeaseDuration = .num c) (h : s.Counts d) : c ≤ d := by
  rcases consensus_least h.1 with ⟨c', hc', hown, hall⟩
  rw [PyFloat.num.inj (hc.symm.trans hc')]
  rcases h.2 with hsame | hmem
  · rw [hsame]
    exact hown
  · exact hall d hmem

/-- What lies between a number that is not far and the duration is not far either. -/
theorem farFrom_of_between {current c d : ℚ} (hpos : 0 < current) (hle : c ≤ d)
    (hcurrent : d ≤ current) (hc : farFrom current c = false) : farFrom current d = false := by
  unfold farFrom at hc ⊢
  rw [decide_eq_false_iff_not, gt_iff_lt, not_lt] at hc ⊢
  refine le_trans (double_mono ?_) hc
  refine div_le_div_of_nonneg_right (double_mono ?_) (lt_max_of_lt_left hpos).le
  rw [abs_of_nonpos (by linarith), abs_of_nonpos (by linarith)]
  linarith

/-- A tick leaves a duration one that is noticed exactly if it is safe. -/
theorem converge_noticed_iff {T : ℚ} (hT : 0 ≤ T) {s : WhisperNode}
    (h : Noticed T s.ledger.leaseDuration) :
    Noticed T s.converge.ledger.leaseDuration ↔ SafeTick T s .converge := by
  have hadopted : ∀ c, s.membership.getConsensusLeaseDuration = .num c →
      farFrom s.ledger.leaseDuration c = true → s.converge.ledger.leaseDuration = c := by
    intro c hc hfar
    unfold WhisperNode.converge
    simp only [hc, if_pos hfar]
    rw [TaskLedger.converge, if_pos hfar]
  have hkept : (∀ c, s.membership.getConsensusLeaseDuration = .num c →
      farFrom s.ledger.leaseDuration c = false) → s.converge = s := by
    intro hnear
    rcases s.converge_cases with hsame | ⟨c, hc, hfar, _⟩
    · exact hsame
    · rw [hnear c hc] at hfar
      exact (Bool.false_ne_true hfar).elim
  cases hconsensus : s.membership.getConsensusLeaseDuration with
  | nan =>
      -- No duration counts, and nothing is adopted.
      rw [hkept (fun c hc => by rw [hconsensus] at hc; cases hc)]
      refine ⟨fun _ _ d hd => ?_, fun _ => h⟩
      rcases consensus_least hd.1 with ⟨c, hc, _⟩
      rw [hconsensus] at hc
      cases hc
  | num c =>
      by_cases hnoticed : Noticed T c
      · -- With such a consensus a tick is harmless whether it adopts it or not.
        refine ⟨fun _ _ d hd => Or.inl (hnoticed.mono (consensus_le_counts hconsensus hd)),
          fun _ => ?_⟩
        cases hfar : farFrom s.ledger.leaseDuration c with
        | true =>
            rw [hadopted c hconsensus hfar]
            exact hnoticed
        | false =>
            rw [hkept (fun c' hc' => by
              rw [hconsensus, PyFloat.num.injEq] at hc'
              rw [← hc']
              exact hfar)]
            exact h
      · cases hfar : farFrom s.ledger.leaseDuration c with
        | true =>
            rw [hadopted c hconsensus hfar]
            refine ⟨fun hc => (hnoticed hc).elim, fun hsafe => ?_⟩
            rcases hsafe rfl c (counts_consensus hconsensus) with hc | hnear
            · exact hc
            · rw [hfar] at hnear
              exact (Bool.false_ne_true hnear.symm).elim
        | false =>
            rw [hkept (fun c' hc' => by
              rw [hconsensus, PyFloat.num.injEq] at hc'
              rw [← hc']
              exact hfar)]
            refine ⟨fun _ _ d hd => ?_, fun _ => h⟩
            rcases le_total s.ledger.leaseDuration d with hlonger | hshorter
            · exact Or.inl (h.mono hlonger)
            · exact Or.inr (farFrom_of_between (h.pos hT) (consensus_le_counts hconsensus hd)
                hshorter hfar)

/-- Leases end after they are made throughout a run exactly if the first duration is
    one that is noticed and every tick of the run is safe. -/
theorem leases_ahead_iff (P : Primitives) {T : ℚ} (hT : 0 ≤ T) (s : WhisperNode)
    (es : List NodeEvent) :
    Machine.Throughout (WhisperNode.step P) (fun s => LeasesAhead T s.ledger.leaseDuration) s es ↔
      Noticed T s.ledger.leaseDuration ∧
        Machine.Along (WhisperNode.step P) (SafeTick T) s es := by
  rw [Machine.throughout_congr (WhisperNode.step P) (fun _ => True)
    (fun s => LeasesAhead T s.ledger.leaseDuration) (fun s => Noticed T s.ledger.leaseDuration)
    (fun _ _ _ _ _ => trivial) (fun s _ => leasesAhead_iff hT s.ledger.leaseDuration) s es trivial]
  have hrun : Noticed T s.ledger.leaseDuration →
      (Machine.Throughout (WhisperNode.step P) (fun s => Noticed T s.ledger.leaseDuration) s es ↔
        Machine.Along (WhisperNode.step P) (SafeTick T) s es) := by
    refine fun h => Machine.throughout_iff_along _ _ _ (fun s e s' h hstep => ?_) s es h
    by_cases he : e = .converge
    · rw [he] at hstep ⊢
      rw [← Option.some.inj hstep]
      exact converge_noticed_iff hT h
    · rw [step_duration hstep he]
      exact ⟨fun _ hc => (he hc).elim, fun _ => h⟩
  constructor
  · exact fun h => ⟨h.head, (hrun h.head).mp h⟩
  · exact fun h => (hrun h.1).mpr h.2

/-! ## Truthful heartbeats -/

/-- A heartbeat that arrives tells a duration that is one, or none that is kept. -/
def Truthful (T : ℚ) (e : NodeEvent) : Prop :=
  ∀ env fromPeer msg, e = .receive env fromPeer msg → Adoptable (Noticed T) msg

/-- The durations that are noticed, as those of so many nodes. -/
def noticeable (T : ℚ) : {d : ℚ // Noticed T d} → ℚ := Subtype.val

theorem initially_noticeable (T d : ℚ) :
    LeaseNet.Initially (noticeable T) d ↔ Noticed T d := by
  constructor
  · rintro ⟨j, hj⟩
    rw [hj]
    exact j.2
  · exact fun h => ⟨⟨d, h⟩, rfl⟩

/-- A step after which only such durations have been heard, if that was so before. -/
theorem step_noticeable {P : Primitives} {T : ℚ} {s s' : WhisperNode} {e : NodeEvent}
    (hs : LeaseNet.NodeSound (noticeable T) s) (ht : Truthful T e) (h : s.step P e = some s') :
    LeaseNet.NodeSound (noticeable T) s' := by
  by_cases he : e.besides = true
  · rcases step_besides h he with htick | ⟨hmember, hledger⟩
    · rw [htick]
      exact hs.converge.1
    · exact hs.of_same hmember hledger
  · -- The other events are actions of the membership layer.
    have hkeep : ∀ {x : MembershipLayer.Act Unit} {node : WhisperNode},
        Action.Within (heardFrame (LeaseNet.Initially (noticeable T)) s.membership.ourLeaseDuration
          (fun _ => True)) x → node.membership = (x s.membership).state →
        node.ledger = s.ledger → LeaseNet.NodeSound (noticeable T) node :=
      fun hx hmember hledger => (hs.perform hx hmember hledger).1
    cases e with
    | beat b =>
        rw [← Option.some.inj h]
        exact hkeep (beat_heard (fun _ _ => trivial) b hs.initial) rfl rfl
    | receive env fromPeer msg =>
        have hmember : isMembership msg = true := by
          simpa only [NodeEvent.besides, Bool.not_eq_true', Bool.not_eq_false] using he
        have hadopt : Adoptable (LeaseNet.Initially (noticeable T)) msg := fun htype htruthy d hd =>
          (initially_noticeable T d).mpr (ht env fromPeer msg rfl htype htruthy d hd)
        rw [← Option.some.inj h, receive_member P s env fromPeer hmember]
        exact hkeep (handleMessage_heard env.member fromPeer hadopt (fun _ _ => trivial)) rfl rfl
    | restart now =>
        have hledger := step_duration h (by exact fun hc => nomatch hc)
        rw [← Option.some.inj h] at hledger ⊢
        -- The table is empty, and both copies are what they were.
        exact ⟨hledger.trans hs.equal, hs.initial, rfl,
          fun _ _ hp => by exact (nomatch (Dict.get?_empty _).symm.trans hp)⟩
    | call c => exact (he rfl).elim
    | converge => exact (he rfl).elim
    | openAuction taskId => exact (he rfl).elim
    | closeAuction taskId => exact (he rfl).elim
    | openShares k needed own => exact (he rfl).elim
    | closeShares k => exact (he rfl).elim
    | drainResults => exact (he rfl).elim

/-- A node that has just started meets no tick that is not safe as long as the
    heartbeats are truthful. -/
theorem along_safeTick (P : Primitives) {T : ℚ} (node : WhisperNode) {d : ℚ} (hd : Noticed T d)
    (es : List NodeEvent) (ht : ∀ e ∈ es, Truthful T e) :
    Machine.Along (WhisperNode.step P) (SafeTick T)
      { node with
        membership := { node.membership.fresh with ourLeaseDuration := d }
        ledger := { node.ledger with leaseDuration := d } } es := by
  have hstart : LeaseNet.NodeSound (noticeable T) { node with
      membership := { node.membership.fresh with ourLeaseDuration := d }
      ledger := { node.ledger with leaseDuration := d } } :=
    ⟨rfl, (initially_noticeable T d).mpr hd, rfl,
      fun _ _ hp => by exact (nomatch (Dict.get?_empty _).symm.trans hp)⟩
  refine Machine.along_of_invariant _ (LeaseNet.NodeSound (noticeable T)) (fun _ e => Truthful T e)
    (SafeTick T)
    (fun s e s' hs hok h => step_noticeable hs hok h) (fun s e s' hs _ _ _ c hc => Or.inl ?_) _ es
    hstart (Machine.along_of_forall _ _ _ _ (fun e he _ => ht e he))
  rcases hc.2 with hown | hmem
  · rw [hown]
    exact (initially_noticeable T _).mp hs.initial
  · rcases mem_durations.mp hmem with ⟨k, p, hp, _, hreported⟩
    exact (initially_noticeable T c).mp (hs.heard.2 k p hp c hreported)

namespace Negative

def node : WhisperNode where
  membership := { ourKey := lit "a" }
  ledger := { ourKey := lit "a" }
  runtime := { shardId := 1 }

/-- A heartbeat with this lease duration. -/
def heartbeat (seconds : Int) : Msg :=
  [(lit "type", .str (lit "heartbeat")), (lit "msg_id", .str (lit "1")),
   (lit "from", .str (lit "b")), (lit "lease_duration", .int seconds), (lit "hops", .int 0)]

def events (seconds : Int) : List NodeEvent :=
  [.receive NodeEnv.plain (.str (lit "b")) (heartbeat seconds), .converge]

/-- The times up to which the clock is looked at. -/
def horizon : ℚ := 2 ^ 32

/-- One heartbeat with a negative number makes every lease one that is over. -/
theorem negative_adopted : ((Machine.run (WhisperNode.step reference) node (events (-5))).map
      (fun s => s.ledger.leaseDuration) = some (-5)) ∧
    ¬ Machine.Throughout (WhisperNode.step reference)
      (fun s => LeasesAhead horizon s.ledger.leaseDuration) node (events (-5)) := by
  have hrun : (Machine.run (WhisperNode.step reference) node (events (-5))).map
      (fun s => s.ledger.leaseDuration) = some (-5) := by decide +kernel
  refine ⟨hrun, fun h => ?_⟩
  rcases Option.map_eq_some_iff.mp hrun with ⟨t, ht, hduration⟩
  have hpos := (h.last ht).positive
  rw [hduration] at hpos
  exact absurd hpos (by norm_num)

/-- A short one does not. -/
theorem short_adopted : Machine.Throughout (WhisperNode.step reference)
    (fun s => LeasesAhead horizon s.ledger.leaseDuration) node (events 5) := by
  have hnoticed : ∀ d : ℚ, 5 ≤ d → Noticed horizon d := fun d hd =>
    noticed_of_le (by norm_num [horizon]) (by norm_num [horizon])
      (le_trans (by norm_num [horizon]) hd)
  have hfirst : Noticed horizon node.ledger.leaseDuration := hnoticed 30 (by norm_num)
  refine (leases_ahead_iff reference (by norm_num [horizon]) node (events 5)).mpr ⟨hfirst, ?_⟩
  refine along_safeTick reference node (hnoticed 30 (by norm_num)) (events 5)
    (fun e he env fromPeer msg heq _ _ d hd => ?_)
  rw [heq] at he
  rcases List.mem_cons.mp he with he | he
  · have hfive : pyFloat (get (heartbeat 5) (lit "lease_duration")) = .ok (.num 5) := by
      decide +kernel
    rw [(NodeEvent.receive.inj he).2.2, hfive, Except.ok.injEq, PyFloat.num.injEq] at hd
    exact hnoticed d hd.le
  · exact (nomatch List.mem_singleton.mp he)

end Negative

/-- A nanosecond is lost on a clock that shows the year 2004. -/
example : double (2 ^ 30 + double (1 / 10 ^ 9)) = 2 ^ 30 := by decide +kernel

end WhisperNet
