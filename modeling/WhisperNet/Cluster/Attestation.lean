import WhisperNet.Cluster.Network
import WhisperNet.Crypto.Reference
import WhisperNet.Ledger.Restart

/-!
# Attestations

A record in progress or completed carries a digest of its holder, its id and
the time of the claim, and a completed one a digest of its result. The
operations assign these fields one by one and mostly apart from each other: a
renewal moves the expiry, a release takes the holder away and leaves both
digests, a completion looks at the holder only.

That they still agree needs more than the claim itself. A record that names a
holder is not pending, so whoever completes a task it holds finds the digest of
its own claim there. `Sealed` says this, and it is kept by every operation that
returns, by every merge of a record that a node has sent, and by a restart.

A node here sends a record at any time, not only after the operation that wrote
it. The sends after an operation read the record again once the lock is
released, and may find it changed.

## Main definitions

* `Attested`: The digests of a record are those of its fields.
* `Sealed`: Attested, and only pending without a holder.
* `Call.returns`: A call that does not raise.
* `Replicas`: Ledgers with their files, and everything they have sent.
* `Replicas.step`: The replicas after an event.

## Theorems

* `run_sealed`: A call that returns keeps every record sealed.
* `update_sealed`: So does the merge of a sealed record.
* `Replicas.step_sealed`: And every step of the replicas.
* `attestations_consistent`: Every record held, on disk or in flight is attested.
-/

namespace WhisperNet

open TaskLedger
open PyVal (get)

/-- The digests of a record are those of its other fields. -/
def Attested (t : Task) : Prop :=
  (t.status = .inProgress ∨ t.status = .completed →
    ∃ leasedBy taskId claimedAt, t.leasedBy = .str leasedBy ∧ t.taskId = .str taskId ∧
      t.claimedAt = .float claimedAt ∧
      digest16 (commitmentText leasedBy taskId claimedAt) = .ok t.commitment) ∧
  (t.status = .completed →
    ∃ result, t.result = .str result ∧ digest16 result = .ok t.resultHash)

/-- The commitment is that of the holder and the time of its claim. -/
def Committed (taskId : PyStr) (t : Task) : Prop :=
  ∃ leasedBy claimedAt, t.leasedBy = .str leasedBy ∧ t.claimedAt = .float claimedAt ∧
    digest16 (commitmentText leasedBy taskId claimedAt) = .ok t.commitment

structure Sealed (taskId : PyStr) (t : Task) : Prop where
  id : t.taskId = .str taskId
  /-- Only a pending record has no holder. -/
  holder : (t.status = .pending ∧ t.leasedBy = .none) ∨
    ((t.status = .inProgress ∨ t.status = .completed) ∧ Committed taskId t)
  result : t.status = .completed →
    ∃ result, t.result = .str result ∧ digest16 result = .ok t.resultHash

/-- The record a message carries is sealed, if it carries one. -/
def SealedMsg (msg : Msg) : Prop := ∀ t, Carries msg t → ∃ taskId, Sealed taskId t

/-! ## Records -/

theorem Sealed.attested {taskId : PyStr} {t : Task} (h : Sealed taskId t) : Attested t := by
  refine ⟨fun hstatus => ?_, h.result⟩
  rcases h.holder with ⟨hpending, _⟩ | ⟨_, leasedBy, claimedAt, hholder, hclaimed, hdigest⟩
  · rw [hpending] at hstatus
    rcases hstatus with hc | hc
    · simp only [reduceCtorEq] at hc
    · simp only [reduceCtorEq] at hc
  · exact ⟨leasedBy, taskId, claimedAt, hholder, h.id, hclaimed, hdigest⟩

/-- Who is named as the holder has claimed the task. -/
theorem Sealed.committed {taskId : PyStr} {t : Task} {key : PyStr} (h : Sealed taskId t)
    (hholder : t.leasedBy = .str key) : Committed taskId t := by
  rcases h.holder with ⟨_, hnone⟩ | ⟨_, hcommitted⟩
  · rw [hnone] at hholder
    simp only [reduceCtorEq] at hholder
  · exact hcommitted

/-- The expiry and the version are in no digest. -/
theorem Sealed.renewed {taskId : PyStr} {t : Task} (h : Sealed taskId t) (expires version : PyVal) :
    Sealed taskId { t with leaseExpires := expires, version := version } :=
  ⟨h.id, h.holder, h.result⟩

theorem Sealed.released {taskId : PyStr} {t : Task} (h : Sealed taskId t)
    (expires version : PyVal) :
    Sealed taskId { t with
      status := .pending, leasedBy := .none, leaseExpires := expires, version := version } :=
  ⟨h.id, Or.inl ⟨rfl, rfl⟩, fun hc => absurd hc (by simp only [reduceCtorEq, not_false_eq_true])⟩

theorem FiledAs.found {Q : PyStr → Task → Prop} {L : TaskLedger} {taskId : PyStr} {t : Task}
    (h : FiledAs Q L) (hfind : L.find? taskId = some t) : Q taskId t := by
  rcases h (.str taskId) t hfind with ⟨taskId', hk, hQ⟩
  rw [Key.str.inj hk]
  exact hQ

/-! ## Calls -/

/-- Whether a call returns. -/
def Call.returns (P : Primitives) (L : TaskLedger) : Call → Bool
  | .submitTask env taskId payload shardId submitterKey =>
    (L.submitTask P env taskId payload shardId submitterKey).ret.isOk
  | .claimTask taskId now => (L.claimTask taskId now).ret.isOk
  | .renewLease taskId now => (L.renewLease taskId now).ret.isOk
  | .completeTask taskId result now uuid => (L.completeTask taskId result now uuid).ret.isOk
  | .releaseLease taskId => (L.releaseLease taskId).ret.isOk
  | .releaseAllLeases => L.releaseAllLeases.ret.isOk
  | .recoverIdentity now => (L.recoverIdentity now).ret.isOk

section Calls

variable {L : TaskLedger}

/-- A claim that returns commits to itself. -/
theorem claimFree_sealed (h : FiledAs Sealed L) {taskId : PyStr} {t : Task} {now : ℚ}
    (ht : Sealed taskId t)
    (hret : (L.claimFree taskId t now).ret.isOk = true) :
    FiledAs Sealed (L.claimFree taskId t now).ledger := by
  unfold claimFree at hret ⊢
  dsimp only at hret ⊢
  cases hdigest : digest16 (commitmentText L.ourKey taskId now) with
  | error e =>
      rw [hdigest] at hret
      exact (nomatch hret)
  | ok commitment =>
      rw [hdigest] at hret
      dsimp only at hret ⊢
      cases hversion : t.version.incr with
      | error e =>
          rw [hversion] at hret
          exact (nomatch hret)
      | ok v =>
          refine filed_set h rfl ⟨ht.id, Or.inr ⟨Or.inl rfl, ?_⟩, fun hc => nomatch hc⟩
          exact ⟨L.ourKey, now, rfl, rfl, hdigest⟩

theorem claimTask_sealed (h : FiledAs Sealed L) {taskId : PyStr} {now : ℚ}
    (hret : (L.claimTask taskId now).ret.isOk = true) :
    FiledAs Sealed (L.claimTask taskId now).ledger := by
  unfold claimTask at hret ⊢
  cases hfind : L.find? taskId with
  | none => exact h
  | some t =>
      rw [hfind] at hret
      dsimp only at hret ⊢
      by_cases hdone : t.status = .completed
      · rw [if_pos hdone]
        exact h
      · rw [if_neg hdone] at hret ⊢
        cases horphaned : wasOrphaned t now with
        | error e => exact h
        | ok orphaned =>
            rw [horphaned] at hret
            dsimp only at hret ⊢
            by_cases hheld : t.status = .inProgress ∧ orphaned = false
            · rw [if_pos hheld]
              exact h
            · rw [if_neg hheld] at hret ⊢
              -- Counting the rescue leaves the records.
              cases orphaned with
              | true =>
                  exact claimFree_sealed (L := { L with tasksRescued := L.tasksRescued + 1 }) h
                    (h.found hfind) hret
              | false => exact claimFree_sealed h (h.found hfind) hret

theorem renewLease_sealed (h : FiledAs Sealed L) (taskId : PyStr) (now : ℚ) :
    FiledAs Sealed (L.renewLease taskId now).ledger := by
  unfold renewLease
  cases hfind : L.find? taskId with
  | none => exact h
  | some t =>
      dsimp only
      by_cases hmine : L.isMine t = false
      · rw [if_pos hmine]
        exact h
      · rw [if_neg hmine]
        cases t.version.incr with
        | error e => exact filed_set h rfl ((h.found hfind).renewed _ _)
        | ok v => exact filed_set h rfl ((h.found hfind).renewed _ _)

/-- A completion that returns leaves the digest of its result, next to the
    commitment of the claim. -/
theorem completeTask_sealed (h : FiledAs Sealed L) {taskId result : PyStr} {now : ℚ} {uuid : PyStr}
    (hret : (L.completeTask taskId result now uuid).ret.isOk = true) :
    FiledAs Sealed (L.completeTask taskId result now uuid).ledger := by
  unfold completeTask at hret ⊢
  cases hfind : L.find? taskId with
  | none => exact h
  | some t =>
      rw [hfind] at hret
      dsimp only at hret ⊢
      by_cases hholder : t.leasedBy ≠ .str L.ourKey
      · rw [if_pos hholder]
        exact h
      · rw [if_neg hholder] at hret ⊢
        cases hdigest : digest16 result with
        | error e =>
            rw [hdigest] at hret
            exact (nomatch hret)
        | ok resultHash =>
            have ht := h.found hfind
            dsimp only
            -- The holder is this node, so the claim is its own.
            have hcommitted := ht.committed (not_not.mp hholder)
            cases t.version.incr with
            | error e =>
                exact filed_set h rfl ⟨ht.id, Or.inr ⟨Or.inr rfl, hcommitted⟩,
                  fun _ => ⟨result, rfl, hdigest⟩⟩
            | ok v =>
                exact filed_set h rfl ⟨ht.id, Or.inr ⟨Or.inr rfl, hcommitted⟩,
                  fun _ => ⟨result, rfl, hdigest⟩⟩

theorem releaseLease_sealed (h : FiledAs Sealed L) (taskId : PyStr) :
    FiledAs Sealed (L.releaseLease taskId).ledger := by
  unfold releaseLease
  cases hfind : L.find? taskId with
  | none => exact h
  | some t =>
      dsimp only
      by_cases hholder : t.leasedBy ≠ .str L.ourKey
      · rw [if_pos hholder]
        exact h
      · rw [if_neg hholder]
        cases t.version.incr with
        | error e => exact filed_set h rfl ((h.found hfind).released _ _)
        | ok v => exact filed_set h rfl ((h.found hfind).released _ _)

/-- The two walks, for an assignment that keeps a record sealed. -/
theorem bumpAll_sealed (h : FiledAs Sealed L) {assign : Task → Task}
    (hassign : ∀ taskId t, Sealed taskId t → ∀ version,
      Sealed taskId (assign t) ∧ Sealed taskId { assign t with version := version }) :
    FiledAs Sealed (L.bumpAll assign).ledger := by
  intro k t ht
  rcases L.bumpAll_get? assign k with hsame | ⟨old, hold, _, hnew⟩
  · exact h k t (hsame ▸ ht)
  · rcases h k old hold with ⟨taskId, hk, hsealed⟩
    rw [hnew, Option.some.injEq] at ht
    refine ⟨taskId, hk, ?_⟩
    rw [← ht]
    unfold bump
    cases old.version.incr with
    | error e => exact (hassign taskId old hsealed .none).1
    | ok v => exact (hassign taskId old hsealed v).2

/-- A call that returns keeps every record sealed. -/
theorem run_sealed (P : Primitives) (h : FiledAs Sealed L) (c : Call)
    (hret : c.returns P L = true) : FiledAs Sealed (c.run P L).1 := by
  cases c with
  | submitTask env taskId payload shardId submitterKey =>
      exact filed_set h rfl ⟨rfl, Or.inl ⟨rfl, rfl⟩, fun hc => nomatch hc⟩
  | claimTask taskId now => exact claimTask_sealed h hret
  | renewLease taskId now => exact renewLease_sealed h taskId now
  | completeTask taskId result now uuid => exact completeTask_sealed h hret
  | releaseLease taskId => exact releaseLease_sealed h taskId
  | releaseAllLeases =>
      exact bumpAll_sealed h (fun _ t ht version =>
        ⟨ht.released (.float 0) t.version, ht.released (.float 0) version⟩)
  | recoverIdentity now =>
      exact bumpAll_sealed h (fun _ t ht version =>
        ⟨ht.renewed (.float (now + L.leaseDuration)) t.version,
          ht.renewed (.float (now + L.leaseDuration)) version⟩)

/-- The merge of a sealed record keeps every record sealed. -/
theorem update_sealed (P : Primitives) (h : FiledAs Sealed L) {msg : Msg} (hmsg : SealedMsg msg) :
    FiledAs Sealed (L.handleLedgerUpdate P msg).ledger := by
  rcases update_installs P L msg with hsame | ⟨t, key, ⟨_, _, _, d, _, hd, ht, _⟩, hkey, hset⟩
  · exact fun k u hu => h k u (hsame ▸ hu)
  · rcases hmsg t ⟨d, hd, ht⟩ with ⟨taskId, hsealed⟩
    rw [hsealed.id] at hkey
    rw [← Except.ok.inj hkey] at hset
    exact filed_set h hset hsealed

end Calls

/-! ## The replicas -/

/-- The ledgers, each with its file, and every update sent so far. -/
structure Replicas (ι : Type) where
  ledgers : ι → TaskLedger
  sent : List Msg

/-- `gossip i k` sends the record of a key as it is now. `deliver i n` hands node
    `i` the `n`-th message sent, which stays to be delivered again. `restart i`
    starts the node from its file; its `recover_identity` is a call. -/
inductive ReplicaEvent (ι : Type)
  | call (i : ι) (c : Call)
  | gossip (i : ι) (k : Key) (uuid : PyStr)
  | deliver (i : ι) (n : Nat)
  | restart (i : ι)

namespace Replicas

variable {ι : Type}

/-- Nodes of any configuration, without a record or a file. -/
def start (ledgers : ι → TaskLedger) : Replicas ι where
  ledgers := fun i => { ledgers i with tasks := Dict.empty, disk := none }
  sent := []

variable [DecidableEq ι]

/-- No call raises. -/
def step (P : Primitives) (s : Replicas ι) : ReplicaEvent ι → Option (Replicas ι)
  | .call i c =>
    if c.returns P (s.ledgers i) then
      some { s with ledgers := Function.update s.ledgers i (c.run P (s.ledgers i)).1 }
    else none
  | .gossip i k uuid =>
    match (s.ledgers i).tasks.get? k with
    | none => none
    | some t =>
      match (s.ledgers i).gossipTask P uuid t with
      | .error _ => none
      | .ok msg => some { s with sent := s.sent ++ [msg] }
  | .deliver i n =>
    match s.sent[n]? with
    | none => none
    | some msg =>
      let o := (s.ledgers i).handleLedgerUpdate P msg
      some
        { ledgers := Function.update s.ledgers i o.ledger
          sent := s.sent ++ relays o.out }
  | .restart i => some { s with ledgers := Function.update s.ledgers i (s.ledgers i).load }

/-- Every record held, on disk or in flight is sealed. -/
structure Sound (s : Replicas ι) : Prop where
  filed : ∀ i, FiledAs Sealed (s.ledgers i)
  stored : ∀ i, StoredAs Sealed (s.ledgers i).disk
  sent : ∀ msg ∈ s.sent, SealedMsg msg

omit [DecidableEq ι] in
theorem sound_start (ledgers : ι → TaskLedger) : Sound (start ledgers) where
  filed := fun _ _ _ ht => nomatch ht
  stored := fun _ _ hdisk => nomatch hdisk
  sent := fun _ hmsg => (List.not_mem_nil hmsg).elim

/-- A step that changes one ledger and sends some messages. -/
theorem Sound.set {s : Replicas ι} (hs : Sound s) {i : ι} {L : TaskLedger} {out : List Msg}
    (hfiled : FiledAs Sealed L) (hstored : StoredAs Sealed L.disk)
    (hout : ∀ msg ∈ out, SealedMsg msg) :
    Sound ⟨Function.update s.ledgers i L, s.sent ++ out⟩ := by
  refine ⟨fun j => ?_, fun j => ?_, fun msg hmsg => ?_⟩
  · change FiledAs Sealed (Function.update s.ledgers i L j)
    by_cases hj : j = i
    · rw [hj, Function.update_self]
      exact hfiled
    · rw [Function.update_of_ne hj]
      exact hs.filed j
  · change StoredAs Sealed (Function.update s.ledgers i L j).disk
    by_cases hj : j = i
    · rw [hj, Function.update_self]
      exact hstored
    · rw [Function.update_of_ne hj]
      exact hs.stored j
  · rcases List.mem_append.mp hmsg with hold | hnew
    · exact hs.sent msg hold
    · exact hout msg hnew

/-- What a merge relays carries the record it was sent. -/
theorem relays_sealed (P : Primitives) (L : TaskLedger) {msg : Msg} (hmsg : SealedMsg msg) :
    ∀ m ∈ relays (L.handleLedgerUpdate P msg).out, SealedMsg m := by
  intro m hm t ht
  have hout := mem_relays _ m hm
  rcases L.handleLedgerUpdate_cases P msg with ⟨_, hnone⟩ | ⟨_, _, _, _, _, _, _, _, _, hrelay⟩
  · rw [hnone] at hout
    exact (List.not_mem_nil hout).elim
  · rcases hrelay _ hout with ⟨hops, heq⟩
    rw [Output.relay.injEq] at heq
    rw [heq] at ht
    exact hmsg t ((carries_relay msg hops t).mp ht)

theorem step_sealed {P : Primitives} {s s' : Replicas ι} {e : ReplicaEvent ι} (hs : Sound s)
    (h : s.step P e = some s') : Sound s' := by
  have hnone : s.sent = s.sent ++ [] := (List.append_nil _).symm
  cases e with
  | call i c =>
      simp only [step] at h
      by_cases hret : c.returns P (s.ledgers i) = true
      · rw [if_pos hret, Option.some.injEq] at h
        rw [← h, hnone]
        have hfiled := run_sealed P (hs.filed i) c hret
        exact hs.set hfiled (stored_of_kept (run_file P _ c) (hs.stored i) hfiled.written)
          (fun _ hmsg => (List.not_mem_nil hmsg).elim)
      · rw [if_neg hret] at h
        simp only [reduceCtorEq] at h
  | gossip i k uuid =>
      simp only [step] at h
      cases hk : (s.ledgers i).tasks.get? k with
      | none =>
          rw [hk] at h
          simp only [reduceCtorEq] at h
      | some t =>
          simp only [hk] at h
          cases hmsg : (s.ledgers i).gossipTask P uuid t with
          | error e =>
              rw [hmsg] at h
              simp only [reduceCtorEq] at h
          | ok msg =>
              simp only [hmsg, Option.some.injEq] at h
              rw [← h]
              refine ⟨hs.filed, hs.stored, fun m hm u hu => ?_⟩
              rcases List.mem_append.mp hm with hold | hnew
              · exact hs.sent m hold u hu
              · rw [List.mem_singleton.mp hnew] at hu
                -- What is gossiped is a record of the ledger, and those are sealed.
                rcases hs.filed i k t hk with ⟨taskId, _, hsealed⟩
                rw [carries_unique hu (carries_gossip hmsg)]
                exact ⟨taskId, hsealed⟩
  | deliver i n =>
      simp only [step] at h
      cases hn : s.sent[n]? with
      | none =>
          rw [hn] at h
          simp only [reduceCtorEq] at h
      | some msg =>
          simp only [hn, Option.some.injEq] at h
          rw [← h]
          have hmsg := hs.sent msg (List.mem_of_getElem? hn)
          have hfiled := update_sealed P (hs.filed i) hmsg
          exact hs.set hfiled (stored_of_kept (update_file P _ msg) (hs.stored i) hfiled.written)
            (relays_sealed P _ hmsg)
  | restart i =>
      rw [← Option.some.inj h, hnone]
      exact hs.set (load_filed (hs.stored i)) (hs.stored i)
        (fun _ hmsg => (List.not_mem_nil hmsg).elim)

end Replicas

/-- In every run in which no call raises, the digests of every record in a
    ledger, in a file or in a message are those of its other fields. -/
theorem attestations_consistent {ι : Type} [DecidableEq ι] (P : Primitives)
    (ledgers : ι → TaskLedger) (es : List (ReplicaEvent ι)) :
    Machine.Throughout (Replicas.step P)
      (fun s => (∀ i k t, (s.ledgers i).tasks.get? k = some t → Attested t) ∧
        (∀ i entries, (s.ledgers i).disk = some entries → ∀ k d t,
          (k, .dict d) ∈ entries → Task.fromDict d = .ok t → Attested t) ∧
        (∀ msg ∈ s.sent, ∀ t, Carries msg t → Attested t))
      (Replicas.start ledgers) es := by
  refine Machine.Throughout.mono (fun s hs => ⟨fun i k t ht => ?_,
    fun i entries hdisk k d t hmem hd => ?_, fun msg hmsg t ht => ?_⟩)
    (Machine.throughout_of_along _ Replicas.Sound (fun _ _ => True)
      (fun s e s' hs _ h => Replicas.step_sealed hs h) _ _ (Replicas.sound_start ledgers)
      (Machine.along_of_forall _ _ _ _ (fun _ _ _ => trivial)))
  · rcases hs.filed i k t ht with ⟨_, _, hsealed⟩
    exact hsealed.attested
  · rcases hs.stored i entries hdisk _ hmem with ⟨u, hu, hsealed⟩
    rw [PyVal.dict.inj hu, Task.fromDict_toDict, Except.ok.injEq] at hd
    rw [← hd]
    exact hsealed.attested
  · rcases hs.sent msg hmsg t ht with ⟨_, hsealed⟩
    exact hsealed.attested

/-- A task claimed on one node, restarted from its file and completed there, and
    taken over by another. -/
example : (Machine.run (Replicas.step reference)
    (Replicas.start (fun _ : Bool => { ourKey := lit "ab" }))
    [.call true (.submitTask .plain (lit "t") (lit "ask") 0 .none),
     .call true (.claimTask (lit "t") 1), .restart true, .call true (.recoverIdentity 2),
     .gossip true (.str (lit "t")) (lit "m"),
     .call true (.completeTask (lit "t") (lit "answer") 3 (lit "u")), .deliver false 0]).isSome =
    true := by decide +kernel

end WhisperNet
