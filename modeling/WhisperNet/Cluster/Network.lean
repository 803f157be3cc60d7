import Mathlib.Logic.Function.Basic
import WhisperNet.Ledger.Calls
import WhisperNet.Lib.Machine

/-!
# A Cluster of Ledgers

Several nodes, each with its ledger, and everything they have sent. A step is
a call at a node that runs, the delivery of a message to one, or a node that
stops for good. What nodes send is only ever added to, so a message can be
delivered at any later time, in any order, any number of times, or never. The
step takes any message at all; which messages an environment can deliver is a
condition on the run.

The calls of a node are not tied to its scan loop or its execution threads
here. Every schedule of those is a sequence of calls, so what holds of every
sequence of calls holds of every schedule.

## Main definitions

* `Sending`: A record a node gossiped and the message it made of it.
* `Cluster`: The ledgers, which nodes run, and what was sent.
* `Event`: A call, a delivery or a stop.
* `Cluster.step`: The cluster after an event.
* `Cluster.sent`: Every update sent so far.
* `Carries`: The record a message carries.

## Theorems

* `mem_sendings`: What a call adds to the sent messages.
* `carries_gossip`: A gossiped message carries the record.
* `carries_relay`: A relayed message carries the same record.
* `step_call`, `step_deliver`, `step_stop`: The cluster after each event.
-/

namespace WhisperNet

open TaskLedger
open PyVal (get)

/-- A record a node gossiped on its own behalf, with the message it made. -/
structure Sending (ι : Type) where
  node : ι
  record : Task
  msg : Msg

structure Cluster (ι : Type) where
  ledgers : ι → TaskLedger
  running : ι → Bool
  produced : List (Sending ι)
  relayed : List Msg
  results : List Msg

/-- `uuid` gives the id of the message made of each gossiped record. -/
inductive Event (ι : Type)
  | call (i : ι) (c : Call) (uuid : Task → PyStr)
  | deliver (i : ι) (msg : Msg)
  | stop (i : ι)

/-- The updates a node makes of the records it gossips. -/
def sendings {ι : Type} (P : Primitives) (L : TaskLedger) (i : ι) (uuid : Task → PyStr)
    (out : List Output) : List (Sending ι) :=
  out.filterMap (fun o => match o with
    | .gossip t => match L.gossipTask P (uuid t) t with
      | .ok msg => some ⟨i, t, msg⟩
      | .error _ => none
    | _ => none)

def relays (out : List Output) : List Msg :=
  out.filterMap (fun o => match o with
    | .relay msg => some msg
    | _ => none)

/-- The result messages of a call, to the submitter or kept locally. -/
def notifications (out : List Output) : List Msg :=
  out.filterMap (fun o => match o with
    | .taskResult _ msg => some msg
    | .localResult msg => some msg
    | _ => none)

namespace Cluster

variable {ι : Type} [DecidableEq ι]

/-- Every update sent so far. -/
def sent (s : Cluster ι) : List Msg := s.produced.map Sending.msg ++ s.relayed

def step (P : Primitives) (s : Cluster ι) : Event ι → Option (Cluster ι)
  | .call i c uuid =>
    if s.running i then
      let (L, out) := c.run P (s.ledgers i)
      some { s with
        ledgers := Function.update s.ledgers i L
        produced := s.produced ++ sendings P L i uuid out
        results := s.results ++ notifications out }
    else none
  | .deliver i msg =>
    if s.running i then
      let o := (s.ledgers i).handleLedgerUpdate P msg
      some { s with
        ledgers := Function.update s.ledgers i o.ledger
        relayed := s.relayed ++ relays o.out }
    else none
  | .stop i => some { s with running := Function.update s.running i false }

theorem step_call {P : Primitives} {s s' : Cluster ι} {i : ι} {c : Call} {uuid : Task → PyStr}
    (h : s.step P (.call i c uuid) = some s') :
    s.running i = true ∧ s'.running = s.running ∧
      s'.ledgers = Function.update s.ledgers i (c.run P (s.ledgers i)).1 ∧
      s'.produced = s.produced ++
        sendings P (c.run P (s.ledgers i)).1 i uuid (c.run P (s.ledgers i)).2 ∧
      s'.relayed = s.relayed ∧
      s'.results = s.results ++ notifications (c.run P (s.ledgers i)).2 := by
  simp only [step] at h
  by_cases hr : s.running i = true
  · rw [if_pos hr, Option.some.injEq] at h
    rw [← h]
    exact ⟨hr, rfl, rfl, rfl, rfl, rfl⟩
  · rw [if_neg hr] at h
    exact absurd h (by simp only [reduceCtorEq, not_false_eq_true])

theorem step_deliver {P : Primitives} {s s' : Cluster ι} {i : ι} {msg : Msg}
    (h : s.step P (.deliver i msg) = some s') :
    s.running i = true ∧ s'.running = s.running ∧
      s'.ledgers = Function.update s.ledgers i ((s.ledgers i).handleLedgerUpdate P msg).ledger ∧
      s'.produced = s.produced ∧
      s'.relayed = s.relayed ++ relays ((s.ledgers i).handleLedgerUpdate P msg).out ∧
      s'.results = s.results := by
  simp only [step] at h
  by_cases hr : s.running i = true
  · rw [if_pos hr, Option.some.injEq] at h
    rw [← h]
    exact ⟨hr, rfl, rfl, rfl, rfl, rfl⟩
  · rw [if_neg hr] at h
    exact absurd h (by simp only [reduceCtorEq, not_false_eq_true])

theorem step_stop {P : Primitives} {s s' : Cluster ι} {i : ι}
    (h : s.step P (.stop i) = some s') :
    s'.running = Function.update s.running i false ∧ s'.ledgers = s.ledgers ∧
      s'.produced = s.produced ∧ s'.relayed = s.relayed ∧ s'.results = s.results := by
  simp only [step] at h
  rw [Option.some.injEq] at h
  rw [← h]
  exact ⟨rfl, rfl, rfl, rfl, rfl⟩

end Cluster

/-! ## Messages -/

theorem mem_sendings {ι : Type} (P : Primitives) (L : TaskLedger) (i : ι) (uuid : Task → PyStr)
    (out : List Output) (x : Sending ι) (h : x ∈ sendings P L i uuid out) :
    x.node = i ∧ .gossip x.record ∈ out ∧
      L.gossipTask P (uuid x.record) x.record = .ok x.msg := by
  rcases List.mem_filterMap.mp h with ⟨o, ho, hx⟩
  cases o with
  | gossip t =>
      simp only [] at hx
      cases hm : L.gossipTask P (uuid t) t with
      | ok msg =>
          simp only [hm, Option.some.injEq] at hx
          rw [← hx]
          exact ⟨rfl, ho, hm⟩
      | error e => simp only [hm, reduceCtorEq] at hx
  | relay msg => exact absurd hx (by simp only [reduceCtorEq, not_false_eq_true])
  | taskResult dest msg => exact absurd hx (by simp only [reduceCtorEq, not_false_eq_true])
  | localResult msg => exact absurd hx (by simp only [reduceCtorEq, not_false_eq_true])

theorem mem_relays (out : List Output) (msg : Msg) (h : msg ∈ relays out) :
    .relay msg ∈ out := by
  rcases List.mem_filterMap.mp h with ⟨o, ho, hx⟩
  cases o with
  | relay m =>
      rw [← Option.some.inj hx]
      exact ho
  | gossip t => exact absurd hx (by simp only [reduceCtorEq, not_false_eq_true])
  | taskResult dest m => exact absurd hx (by simp only [reduceCtorEq, not_false_eq_true])
  | localResult m => exact absurd hx (by simp only [reduceCtorEq, not_false_eq_true])

theorem mem_notifications (out : List Output) (msg : Msg) (h : msg ∈ notifications out) :
    .localResult msg ∈ out ∨ ∃ dest, .taskResult dest msg ∈ out := by
  rcases List.mem_filterMap.mp h with ⟨o, ho, hx⟩
  cases o with
  | gossip t => exact absurd hx (by simp only [reduceCtorEq, not_false_eq_true])
  | relay m => exact absurd hx (by simp only [reduceCtorEq, not_false_eq_true])
  | taskResult dest m =>
      rw [← Option.some.inj hx]
      exact Or.inr ⟨dest, ho⟩
  | localResult m =>
      rw [← Option.some.inj hx]
      exact Or.inl ho

/-- The record a message carries. -/
def Carries (msg : Msg) (t : Task) : Prop :=
  ∃ d, get msg (lit "task") = .dict d ∧ Task.fromDict d = .ok t

theorem carries_unique {msg : Msg} {t t' : Task} (h : Carries msg t) (h' : Carries msg t') :
    t = t' := by
  rcases h with ⟨d, hd, ht⟩
  rcases h' with ⟨d', hd', ht'⟩
  rw [hd, PyVal.dict.injEq] at hd'
  rw [← hd', ht, Except.ok.injEq] at ht'
  exact ht'

theorem carries_gossip {P : Primitives} {L : TaskLedger} {uuid : PyStr} {t : Task} {msg : Msg}
    (h : L.gossipTask P uuid t = .ok msg) : Carries msg t :=
  ⟨_, (gossip_fields h).2, Task.fromDict_toDict t⟩

theorem carries_relay (msg : Msg) (h : PyVal) (t : Task) :
    Carries (assign (lit "hops") h msg) t ↔ Carries msg t := by
  have hget : get (assign (lit "hops") h msg) (lit "task") = get msg (lit "task") := by
    unfold PyVal.get
    rw [lookup_assign_of_ne _ _ _ _ (by decide)]
  unfold Carries
  rw [hget]

end WhisperNet
