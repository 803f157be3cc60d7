import WhisperNet.Crypto.Reference
import WhisperNet.Ledger.Calls
import WhisperNet.Runtime.BadShares

/-!
# From Submission to Execution

A payload that is submitted is the payload that is executed. `submit_task` picks
one of three modes, with two fallbacks, and records the mode in the task; the
execution goes by that record, never by what the payload looks like, so a
payload that itself starts with a marker is no exception.

Under a threshold the executing node has to have collected as many shares as
the task asks for. They come from other nodes with the same sealed payload, in
any order, repeated, or late from an earlier collection of the same task; all
of them are shares of one split, and any `t` of those open the payload.

## Main definitions

* `SameJob`: The fields of a record that its payload is read by.
* `Entitled`: A node that may read the payload, by mode.

## Theorems

* `sealThreshold_cases`, `sealShard_cases`: The two attempts of a submission.
* `submitted_mode`, `submitted_encrypted`: What the submitted record says about its
  payload.
* `readShares_genuine`: Genuine shares are points of the split.
* `payload_executed`: The submitted payload is executed.
-/

namespace WhisperNet

open TaskLedger

/-- Two records with the same id and the same payload, encrypted the same way. -/
structure SameJob (stored task : Task) : Prop where
  taskId : stored.taskId = task.taskId
  payload : stored.payload = task.payload
  encrypted : stored.encrypted = task.encrypted
  thresholdT : stored.thresholdT = task.thresholdT

/-- A node that may read the payload of a stored task. Under a threshold, its
    collection returned at least as many shares as the task asks for, in a run
    of its desk where all answers about the task come from nodes that hold the
    task. With a payload sealed to one key, it has the private key. -/
structure Entitled (P : Primitives) (env : SubmitEnv) (W : Worker) (stored : Task)
    (collected : Except PyErr (List (PyVal × Bytes))) : Prop where
  threshold : stored.thresholdT ≠ .int 0 → W.collects = true ∧
    ∃ cipher es d shares, (∀ taskId, stored.taskId = .str taskId →
        ∀ ev ∈ es, DeskEvent.Honest P taskId stored.payload ev) ∧
      Machine.run (fun d ev => Desk.step P cipher d ev) {} es = some d ∧
      (stored, shares) ∈ d.returned ∧ collected = .ok shares ∧
      PyVal.lt (.int shares.length) stored.thresholdT = .ok false
  shard : stored.encrypted = .bool true → ∃ k, W.payloadCipher = some ⟨some k⟩ ∧
    publicKeyOfHex env.encPubkey = .ok (P.xPublic k)

/-- The threshold attempt seals the payload, or leaves it. -/
theorem sealThreshold_cases (L : TaskLedger) (P : Primitives) (env : SubmitEnv) (payload : PyStr) :
    (∃ t keys sealed, env.thresholdParams = some (t, keys) ∧
      ThresholdCipher.encrypt P env.thresholdRand keys payload t = .ok sealed ∧
      L.sealThreshold P env payload = (sealed, t)) ∨
      L.sealThreshold P env payload = (payload, 0) := by
  unfold sealThreshold
  by_cases henabled : L.threshold.enabled = true
  · rw [if_pos henabled]
    cases hparams : env.thresholdParams with
    | none => exact Or.inr rfl
    | some params =>
        rcases params with ⟨t, keys⟩
        cases hseal : ThresholdCipher.encrypt P env.thresholdRand keys payload t with
        | error e =>
            right
            simp only [hseal]
        | ok sealed =>
            refine Or.inl ⟨t, keys, sealed, rfl, hseal, ?_⟩
            simp only [hseal]
  · rw [if_neg henabled]
    exact Or.inr rfl

/-- The per-shard attempt seals the payload to the key of the shard, or leaves
    it. -/
theorem sealShard_cases (L : TaskLedger) (P : Primitives) (env : SubmitEnv) (payload : PyStr)
    (t : Nat) :
    (∃ sealed, t = 0 ∧ PayloadCipher.encrypt P env.payloadRand env.encPubkey payload = .ok sealed ∧
      L.sealShard P env payload t = (sealed, true)) ∨
      L.sealShard P env payload t = (payload, false) := by
  unfold sealShard
  by_cases henabled : t = 0 ∧ L.cipher.enabled = true
  · rw [if_pos henabled]
    by_cases htarget : env.encPubkey.truthy = true
    · rw [if_pos htarget]
      cases hseal : PayloadCipher.encrypt P env.payloadRand env.encPubkey payload with
      | error e => exact Or.inr rfl
      | ok sealed => exact Or.inl ⟨sealed, henabled.1, rfl, rfl⟩
    · rw [if_neg htarget]
      exact Or.inr rfl
  · rw [if_neg henabled]
    exact Or.inr rfl

/-- A record that is marked as encrypted has its payload sealed to the key of the
    shard, and no threshold. -/
theorem submitted_encrypted (P : Primitives) (L : TaskLedger) (env : SubmitEnv)
    (taskId payload : PyStr) (shardId : Int) (submitterKey : PyVal)
    (henc : (L.submittedTask P env taskId payload shardId submitterKey).encrypted = .bool true) :
    ∃ text sealed, PayloadCipher.encrypt P env.payloadRand env.encPubkey text = .ok sealed ∧
      (L.submittedTask P env taskId payload shardId submitterKey).payload = .str sealed ∧
      (L.submittedTask P env taskId payload shardId submitterKey).thresholdT = .int 0 := by
  unfold submittedTask at henc ⊢
  dsimp only at henc ⊢
  rcases sealShard_cases L P env (L.sealThreshold P env payload).1
      (L.sealThreshold P env payload).2 with ⟨sealed, hzero, hseal, heq⟩ | heq
  · refine ⟨(L.sealThreshold P env payload).1, sealed, hseal, ?_, ?_⟩
    · rw [heq]
    · rw [hzero, Nat.cast_zero]
  · rw [heq] at henc
    exact (nomatch henc)

/-- The three modes of a submission: sealed under a threshold, sealed to one
    key, or as it came. -/
theorem submitted_mode (P : Primitives) (L : TaskLedger) (env : SubmitEnv)
    (taskId payload : PyStr) (shardId : Int) (submitterKey : PyVal)
    (hpos : ∀ t keys, env.thresholdParams = some (t, keys) → 1 ≤ t) :
    (∃ t keys sealed, env.thresholdParams = some (t, keys) ∧
        ThresholdCipher.encrypt P env.thresholdRand keys payload t = .ok sealed ∧
        (L.submittedTask P env taskId payload shardId submitterKey).payload = .str sealed ∧
        (L.submittedTask P env taskId payload shardId submitterKey).thresholdT = .int t) ∨
      (∃ sealed, PayloadCipher.encrypt P env.payloadRand env.encPubkey payload = .ok sealed ∧
        (L.submittedTask P env taskId payload shardId submitterKey).payload = .str sealed ∧
        (L.submittedTask P env taskId payload shardId submitterKey).thresholdT = .int 0 ∧
        (L.submittedTask P env taskId payload shardId submitterKey).encrypted = .bool true) ∨
      ((L.submittedTask P env taskId payload shardId submitterKey).payload = .str payload ∧
        (L.submittedTask P env taskId payload shardId submitterKey).thresholdT = .int 0 ∧
        (L.submittedTask P env taskId payload shardId submitterKey).encrypted = .bool false) := by
  have hthreshold := sealThreshold_cases L P env payload
  have hshard := sealShard_cases L P env payload 0
  unfold submittedTask
  rcases hthreshold with ⟨t, keys, sealed, hparams, hseal, heq⟩ | heq
  · -- A sealed payload is not sealed again.
    have hpos' := hpos t keys hparams
    have hskip : L.sealShard P env sealed t = (sealed, false) :=
      (sealShard_cases L P env sealed t).resolve_left (fun ⟨_, hzero, _⟩ => by omega)
    left
    refine ⟨t, keys, sealed, hparams, hseal, ?_, ?_⟩
    · simp only [heq, hskip]
    · simp only [heq]
  · right
    -- Without a threshold seal the payload is sealed to the home node, if its key is known.
    rcases hshard with ⟨sealed, _, hseal, hkey⟩ | hkey
    · left
      refine ⟨sealed, hseal, ?_, ?_, ?_⟩
      · simp only [heq, hkey]
      · simp only [heq, Nat.cast_zero]
      · simp only [heq, hkey]
    · right
      refine ⟨?_, ?_, ?_⟩
      · simp only [heq, hkey]
      · simp only [heq, Nat.cast_zero]
      · simp only [heq, hkey]

/-- Genuine shares are read as points of the split. -/
theorem readShares_genuine {split : List Share} {shares : List (PyVal × Bytes)}
    (h : Genuine split shares) : ∃ points, readShares shares = .ok points ∧
      (∀ e ∈ points, e ∈ split) ∧ (points.map Prod.fst).Nodup ∧
      points.length = shares.length := by
  rcases filed_of_genuine h with ⟨points, hshares, hsub⟩
  have hkeys : shares.map Prod.fst = (points.map Prod.fst).map PyVal.int := by
    rw [hshares, List.map_map, List.map_map]
    rfl
  have hnodup := h.nodup
  rw [hkeys] at hnodup
  refine ⟨points, ?_, hsub, hnodup.of_map, ?_⟩
  · rw [hshares, readShares_filed]
  · rw [hshares, List.length_map]

/-- The payload that was submitted is the one an entitled node executes,
    whatever mode the submission picked. -/
theorem payload_executed (P : Primitives) (hP : P.Lawful) (T : Texts) (L : TaskLedger)
    (M : MembershipLayer) (env : SubmitEnv)
    (hparams : getThresholdParams P L.threshold M = .ok env.thresholdParams)
    (hn : ∀ t keys, env.thresholdParams = some (t, keys) → keys.length ≤ 255)
    (taskId payload : PyStr) (shardId : Int) (submitterKey : PyVal) (stored : Task)
    (hstored : SameJob stored (L.submittedTask P env taskId payload shardId submitterKey))
    (W : Worker) (collected : Except PyErr (List (PyVal × Bytes)))
    (hentitled : Entitled P env W stored collected) :
    executeOne P T W stored collected = .ok (.execute (.str payload)) := by
  have hid : stored.taskId = .str taskId := hstored.taskId
  have hslice : stored.taskId.sliceable = true := by
    rw [hid]
    rfl
  have hpos : ∀ t keys, env.thresholdParams = some (t, keys) → 1 ≤ t := by
    intro t keys heq
    rw [heq] at hparams
    exact (threshold_le hparams).1
  -- One case for each way a payload is sealed at submission.
  rcases submitted_mode P L env taskId payload shardId submitterKey hpos with
    ⟨t, keys, sealed, hkeys, hseal, hpayload, ht⟩ | ⟨sealed, hseal, hpayload, ht, henc⟩ |
    ⟨hpayload, ht, henc⟩
  · rw [← hstored.payload] at hpayload
    rw [← hstored.thresholdT] at ht
    have ht1 := hpos t keys hkeys
    have hne : stored.thresholdT ≠ .int 0 := by
      rw [ht]
      intro hc
      have hzero := PyVal.int.inj hc
      omega
    rcases hentitled.threshold hne with
      ⟨hcollects, cipher, es, d, shares, hhonest, hrun, hreturned, hcollected, henough⟩
    -- The collected shares are shares of the split, so enough of them open the payload.
    have hgenuine := returned_genuine hP hseal cipher taskId
      (fun ev hev => by rw [← hpayload]; exact hhonest taskId hid ev hev) hrun _ hreturned hid
    rcases readShares_genuine hgenuine with ⟨points, hread, hmem, hnodup, hlen⟩
    have hle : t ≤ shares.length := by
      rw [ht, lt_int, Except.ok.injEq, decide_eq_false_iff_not] at henough
      omega
    rcases ThresholdCipher.encrypt_sealed P hP hseal with ⟨data, ct, entries, hsealed, heq⟩
    have hopen := ThresholdCipher.reconstruct_sealed hP hsealed ht1 (hn t keys hkeys) points hmem
      hnodup (by rw [hlen]; exact hle)
    rw [← heq] at hopen
    rw [hcollected]
    exact executeOne_threshold hslice hpayload (by rw [heq]; exact startsWith_append _ _) ht ht1
      hcollects hle hread hopen
  · rw [← hstored.payload] at hpayload
    rw [← hstored.thresholdT] at ht
    rw [← hstored.encrypted] at henc
    rcases hentitled.shard henc with ⟨k, hcipher, hkey⟩
    rcases PayloadCipher.decrypt_encrypt P hP hseal hkey with ⟨hmark, hopen⟩
    exact executeOne_encrypted collected hslice hpayload hmark ht henc hcipher rfl hopen
  · rw [← hstored.payload] at hpayload
    rw [← hstored.thresholdT] at ht
    rw [← hstored.encrypted] at henc
    rw [executeOne_plain collected hslice ht henc, hpayload]

/-! ## A payload that looks encrypted -/

namespace Lookalike

/-- A node with a key. -/
def ledger : TaskLedger where
  ourKey := lit "a"
  cipher := ⟨some [1]⟩
  threshold := ⟨some [1]⟩

/-- A membership that knows no other node. -/
def alone : MembershipLayer where
  ourKey := lit "a"

/-- What a submission to the holder of another key reads. -/
noncomputable def env : SubmitEnv :=
  { SubmitEnv.plain with encPubkey := .str (hex (reference.xPublic [2])) }

/-- The record of a payload that starts with the marker of a sealed one. -/
noncomputable def stored : Task :=
  ledger.submittedTask reference env (lit "t") (lit "ENC:hello") 1 .none

def texts : Texts where
  ofVal := fun _ => []
  ofErr := fun _ => []

/-- A node that knows the keys of two others. -/
def author : TaskLedger where
  ourKey := lit "0"
  cipher := ⟨some [0]⟩
  threshold := ⟨some [0]⟩

noncomputable def known : MembershipLayer where
  ourKey := lit "0"
  peers := (Dict.empty.set (.str (lit "1"))
      { lastSeen := 0, encPubkey := .str (hex (reference.xPublic [1])) }).set (.str (lit "2"))
    { lastSeen := 0, encPubkey := .str (hex (reference.xPublic [2])) }

noncomputable def sharedEnv : SubmitEnv :=
  { SubmitEnv.plain with thresholdParams := some (2, Spoiled.keys), thresholdRand := zeros }

/-- The record of a payload that is sealed to the three keys. -/
noncomputable def sharedTask : Task :=
  author.submittedTask reference sharedEnv (lit "t") (lit "ask") 1 .none

theorem sharedTask_sealed : ThresholdJob sharedTask (lit "t") Spoiled.sealed 2 ∧
    sharedTask.encrypted = .bool false := by
  have hseal : author.sealThreshold reference sharedEnv (lit "ask") = (Spoiled.sealed, 2) := by
    have henabled : author.threshold.enabled = true := rfl
    rw [sealThreshold, if_pos henabled]
    simp only [sharedEnv, Spoiled.sealed_eq]
  unfold sharedTask submittedTask
  rw [hseal]
  exact ⟨⟨rfl, rfl, rfl, by decide⟩, rfl⟩

/-- The answer of the second node. -/
theorem good_answer {other : Share}
    (hother : ThresholdCipher.decryptOwnShare reference ⟨some [1]⟩ Spoiled.sealed =
      .ok (some (filed other))) :
    Answer reference (lit "t") sharedTask.payload (Spoiled.good other) := by
  rcases sharedTask_sealed with ⟨hjob, -⟩
  refine ⟨⟨some [1]⟩, { ourKey := lit "1" }, lit "2", [sharedTask],
    shareRequest (lit "0") (lit "u") sharedTask, .str (lit "0"),
    (handleShareRequest_some_iff ..).mpr ⟨?_, rfl, sharedTask, Spoiled.sealed, filed other, ?_,
      hjob.payload, startsWith_sealed reference_lawful Spoiled.sealed_eq, hother, rfl,
      (fun q hq => by cases hq), rfl⟩, fun t ht _ => by rw [List.mem_singleton.mp ht]⟩
  · rfl
  · rfl

/-- A collection that waits for the answer of the second node, and hears it twice. -/
theorem collected_twice {own other : Share} (hx : own.1 = 1) (hx' : other.1 = 2)
    (hown : ThresholdCipher.decryptOwnShare reference ⟨some [0]⟩ Spoiled.sealed =
      .ok (some (filed own))) :
    collectShares reference ⟨some [0]⟩ sharedTask Spoiled.membership (lit "u") Dict.empty
      [Spoiled.good other, Spoiled.good other] = .ok [filed own, filed other] := by
  have hown' : ThresholdCipher.decryptOwnShare reference ⟨some [0]⟩ Spoiled.sealed =
    .ok ((some own).map filed) := hown
  rw [collectShares_eq sharedTask_sealed.1
    (startsWith_sealed reference_lawful Spoiled.sealed_eq) hown' Spoiled.membership (lit "u")
    (fun _ => Spoiled.addressable)]
  have hnew : keepShare [own] other = [own, other] := by
    refine if_neg ?_
    rw [List.map_singleton, hx, hx']
    decide
  have hagain : keepShare [own, other] other = [own, other] :=
    if_pos (List.mem_map_of_mem (List.mem_cons_of_mem _ (List.mem_singleton_self _)))
  unfold keptShares
  simp only [List.filterMap_cons_some (Spoiled.offered_good other), List.filterMap_nil,
    List.foldl_cons, hnew, hagain]
  rfl

/-- A payload that is sealed to one key is executed as it was submitted by the holder of
    the key, and one that is sealed under a threshold by a node that has collected the
    share of another one. -/
theorem executed :
    executeOne reference texts { payloadCipher := some ⟨some [2]⟩ } stored (.ok []) =
      .ok (.execute (.str (lit "ENC:hello"))) ∧
    ∃ other : Share, ThresholdCipher.decryptOwnShare reference ⟨some [1]⟩ Spoiled.sealed =
        .ok (some (filed other)) ∧
      executeOne reference texts {} sharedTask
          (collectShares reference ⟨some [0]⟩ sharedTask Spoiled.membership (lit "u") Dict.empty
            [Spoiled.good other, Spoiled.good other]) =
        .ok (.execute (.str (lit "ask"))) := by
  constructor
  · have hnone : env.thresholdParams = none := rfl
    refine payload_executed reference reference_lawful texts ledger alone env (by rw [hnone]; rfl)
      (fun t keys hc => by rw [hnone] at hc; cases hc) (lit "t") (lit "ENC:hello") 1 .none
      stored ⟨rfl, rfl, rfl, rfl⟩ _ _ ⟨fun hne => (hne ?_).elim, fun _ => ⟨[2], rfl, ?_⟩⟩
    · rfl
    · exact publicKeyOfHex_hex reference reference_lawful [2]
  · rcases Spoiled.own_share 0 with ⟨own, hx, _, hown⟩
    rcases Spoiled.own_share 1 with ⟨other, hx', _, hother⟩
    rcases sharedTask_sealed with ⟨hjob, hplain⟩
    have hmark := startsWith_sealed reference_lawful Spoiled.sealed_eq
    have hown' : ThresholdCipher.decryptOwnShare reference ⟨some [0]⟩ Spoiled.sealed =
      .ok ((some own).map filed) := hown
    have hbegin := beginCollection_sealed hjob hmark hown'
    rcases collectShares_run hbegin {} Spoiled.membership (lit "u") Spoiled.addressable
      [Spoiled.good other, Spoiled.good other] with ⟨d, shares, hrun, hreturned, hshares⟩
    have hcollected := hshares.symm.trans (collected_twice hx hx' hown)
    rw [Except.ok.injEq] at hcollected
    refine ⟨other, hother, payload_executed reference reference_lawful texts author known sharedEnv
      ?_ (fun t keys heq => ?_) (lit "t") (lit "ask") 1 .none sharedTask ⟨rfl, rfl, rfl, rfl⟩ _ _
      ⟨fun _ => ⟨rfl, ⟨some [0]⟩, _, d, shares, fun taskId hid ev hev => ?_, hrun, ?_, hshares,
        ?_⟩, fun henc => ?_⟩⟩
    · decide +kernel
    · rw [← (Prod.mk.inj (Option.some.inj heq)).2]
      decide
    · rw [hjob.taskId, PyVal.str.injEq] at hid
      rw [← hid]
      -- Both answers are the same one of the second node.
      rcases List.mem_cons.mp hev with rfl | hev
      · exact fun _ => rfl
      · rcases List.mem_append.mp hev with hev | hev
        · rcases List.mem_map.mp hev with ⟨m, hm, rfl⟩
          rcases List.mem_pair.mp hm with rfl | rfl
          · exact fun _ => good_answer hother
          · exact fun _ => good_answer hother
        · rw [List.mem_singleton.mp hev]
          exact fun _ => rfl
    · rw [hreturned]
      exact List.mem_append_right _ (List.mem_singleton_self _)
    · rw [hcollected, hjob.thresholdT]
      rfl
    · rw [hplain] at henc
      cases henc

end Lookalike

end WhisperNet
