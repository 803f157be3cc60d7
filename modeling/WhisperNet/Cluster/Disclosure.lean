import Mathlib.Data.Set.Card
import WhisperNet.Cluster.Flood
import WhisperNet.Lib.Machine

/-!
# The Disclosure of Shares

Who learns the shares of a threshold payload. A node that receives a
`share_request` opens its share of the payload it has on record and sends it, in
the clear, to whoever the message names as its sender. It asks neither whether
the payload has a share for that sender, nor whether the sender holds the lease
of the task.

So the shares a party gets are those it asks for (`disclosed_eq_image`), and they
stay below the threshold exactly if it asks for fewer than `t` of them. The
messages of a run are arbitrary, so they include whatever the party sends, in any
name, and updates that put a payload under another task.

Of the events at a node only the receipt of a message makes it send a share; what
the others send is left out here.

## Main definitions

* `OwnShare`: The share a node opens of a sealed payload.
* `OpensFor`: A request in the name of a party, and the share opened for it.
* `Carried`: The share a response carries.
* `ShareNet`: The nodes, and what they sent on receipt of a message.
* `disclosed`: The shares of a payload that were sent to a party.
* `askedFor`: The nodes whose shares it asked for.

## Theorems

* `receive_disclosed`: A node sends the share it opens for a request, and no other.
* `ownShare_inj`: Nodes with different keys have different shares.
* `disclosed_eq_image`: The shares sent are those of the nodes asked for.
* `disclosed_lt_iff`: They are fewer than `t` if and only if fewer than `t` are
  asked for.
* `Outsider.reaches_threshold`: A party without a share or a lease gets `t` shares.
-/

namespace WhisperNet

open MembershipLayer TaskLedger WhisperNode
open PyVal (get)

/-- The share a node opens of a sealed payload. -/
def OwnShare (P : Primitives) (sealed : PyStr) (s : WhisperNode) (share : PyVal × Bytes) : Prop :=
  ThresholdCipher.decryptOwnShare P s.cipher sealed = .ok (some share)

/-- The message is a `share_request` in the name of `R`, which can be sent to, and of
    the record it asks about the node opens this share. -/
def OpensFor (P : Primitives) (s : WhisperNode) (R : Key) (msg : Msg) (share : PyVal × Bytes) :
    Prop :=
  get msg (lit "type") = .str (lit "share_request") ∧
    (get msg (lit "task_id")).truthy = true ∧ (get msg (lit "from")).truthy = true ∧
    hashKey (get msg (lit "from")) = .ok R ∧ (∀ q, R ≠ .num q) ∧ ∃ task payload,
      s.ledger.tasks.values.find? (fun t => pyEq t.taskId (get msg (lit "task_id"))) = some task ∧
      task.payload = .str payload ∧ startsWith payload thresholdMarker = true ∧
      ThresholdCipher.decryptOwnShare P s.cipher payload = .ok (some share)

/-- The share a response carries, as its receiver reads it. -/
def Carried (P : Primitives) (msg : Msg) (share : PyVal × Bytes) : Prop :=
  get msg (lit "type") = .str (lit "share_response") ∧ get msg (lit "x") = share.1 ∧
    P.b64decode (get msg (lit "share")) = .ok share.2

/-! ## What a node sends -/

section Node

variable {P : Primitives} {s : WhisperNode}

/-- The answer to a request carries the share that is opened for it. -/
theorem answer_iff (hP : P.Lawful) (env : NodeEnv) {msg : Msg}
    (htype : get msg (lit "type") = .str (lit "share_request")) (R : Key) (share : PyVal × Bytes) :
    (∃ o ∈ s.answerShareRequest P env msg, o.dest = R ∧ Carried P o.msg share) ↔
      OpensFor P s R msg share := by
  -- A response carries the opened share and no other.
  have hcarried : ∀ {ourKey uuid : PyStr} {taskId : PyVal} {own : PyVal × Bytes},
      Carried P (shareResponse P ourKey uuid taskId own) share ↔ own = share := by
    intro ourKey uuid taskId own
    constructor
    · rintro ⟨_, hx, hshare⟩
      have hbytes : P.b64decode (.str (P.b64encode own.2)) = .ok share.2 := hshare
      rw [hP.b64, Except.ok.injEq] at hbytes
      exact Prod.ext hx hbytes
    · intro h
      rw [← h]
      exact ⟨rfl, rfl, hP.b64 own.2⟩
  constructor
  · rintro ⟨o, ho, hdest, hshare⟩
    unfold answerShareRequest at ho
    split at ho
    · rename_i answer hanswer
      rw [List.mem_singleton.mp ho] at hdest hshare
      rcases (handleShareRequest_some_iff ..).mp hanswer with
        ⟨htaskId, hfrom, task, payload, own, htask, hpayload, hmark, hown, hkey, htext, hmsg⟩
      rw [hmsg] at hshare
      rw [hcarried.mp hshare] at hown
      rw [hdest] at hkey htext
      exact ⟨htype, htaskId, hfrom, hkey, htext, task, payload, htask, hpayload, hmark, hown⟩
    · exact (List.not_mem_nil ho).elim
  · rintro ⟨_, htaskId, hfrom, hkey, htext, task, payload, htask, hpayload, hmark, hown⟩
    have hanswer := (handleShareRequest_some_iff P s.cipher s.membership env.uuid
      s.ledger.tasks.values msg ⟨R, shareResponse P s.membership.ourKey env.uuid
        (get msg (lit "task_id")) share⟩).mpr
      ⟨htaskId, hfrom, task, payload, share, htask, hpayload, hmark, hown, hkey, htext, rfl⟩
    unfold answerShareRequest
    rw [hanswer]
    exact ⟨_, List.mem_singleton_self _, rfl, hcarried.mpr rfl⟩

/-- A request changes nothing. -/
theorem receive_request (env : NodeEnv) (fromPeer : PyVal) {msg : Msg}
    (htype : get msg (lit "type") = .str (lit "share_request")) :
    s.receive P env fromPeer msg = (s, s.answerShareRequest P env msg) := by
  unfold receive isMembership
  simp only [htype]
  rw [if_neg (by decide), if_neg (by decide), if_neg (by decide), if_neg (by decide),
    if_neg (by decide), if_neg (by decide), if_neg (by decide), if_pos (by decide)]

theorem gossip_type {L : TaskLedger} {uuid : PyStr} {t : Task} {msg : Msg}
    (h : L.gossipTask P uuid t = .ok msg) : get msg (lit "type") = .str (lit "ledger_update") := by
  unfold gossipTask Signer.sign at h
  cases hk : L.signer.privateKey with
  | none =>
      simp only [hk, Except.ok.injEq] at h
      rw [← h]
      rfl
  | some k =>
      simp only [hk] at h
      split at h
      · simp only [reduceCtorEq] at h
      · rw [Except.ok.injEq] at h
        rw [← h]
        rfl

/-- What goes out of an operation that gossips records are updates. -/
theorem transmit_type (env : NodeEnv) (M : MembershipLayer) (L : TaskLedger) {out : List Output}
    (hout : ∀ x ∈ out, ∃ t, x = .gossip t) :
    ∀ o ∈ transmit P env M L out, get o.msg (lit "type") = .str (lit "ledger_update") := by
  induction out with
  | nil => exact fun o ho => (List.not_mem_nil ho).elim
  | cons x rest ih =>
      rcases hout x (List.mem_cons_self ..) with ⟨t, ht⟩
      have hrest := ih (fun y hy => hout y (List.mem_cons_of_mem _ hy))
      intro o ho
      rw [ht, transmit] at ho
      split at ho
      · exact (List.not_mem_nil ho).elim
      · rename_i msg hmsg
        have hfan : ∀ o ∈ (fanout env.member msg M).out,
            get o.msg (lit "type") = .str (lit "ledger_update") := by
          intro o ho
          rw [((fanout_still env.member msg M).2 o ho).1]
          exact gossip_type hmsg
        dsimp only at ho
        split at ho
        · rcases List.mem_append.mp ho with hhead | htail
          · exact hfan o hhead
          · exact hrest o htail
        · exact hfan o ho

/-- The outputs of a claim are updates. -/
theorem claimTask_gossips (L : TaskLedger) (taskId : PyStr) (now : ℚ) :
    ∀ x ∈ (L.claimTask taskId now).out, ∃ t, x = .gossip t := by
  intro x hx
  rcases L.claimTask_cases taskId now with hidle | ⟨old, new, hw, _, hprogress, _⟩
  · rw [hidle.out] at hx
    exact (List.not_mem_nil hx).elim
  · exact ⟨new, hw.gossips (by rw [hprogress]; exact fun hc => (nomatch hc)) x hx⟩

/-- A submission is answered with updates. -/
theorem submit_type (env : NodeEnv) (msg : Msg) :
    ∀ o ∈ (s.handleP2pTaskSubmit P env msg).2,
      get o.msg (lit "type") = .str (lit "ledger_update") := by
  unfold handleP2pTaskSubmit submission
  split
  · exact fun o ho => (List.not_mem_nil ho).elim
  · rename_i o ho
    refine transmit_type env s.membership o.ledger ?_
    split at ho
    · simp only [reduceCtorEq] at ho
    · split at ho
      · simp only [reduceCtorEq] at ho
      · -- The submission was read, and the record is gossiped if it was made.
        rw [← Option.some.inj ho]
        unfold submitRaw
        split
        · exact fun x hx => (List.not_mem_nil hx).elim
        · exact fun x hx => ⟨_, List.mem_singleton.mp hx⟩

/-- An award is answered with updates. -/
theorem award_type (env : NodeEnv) (msg : Msg) :
    ∀ o ∈ (s.handleTaskAward P env msg).2, get o.msg (lit "type") = .str (lit "ledger_update") := by
  unfold handleTaskAward
  split
  · split
    · exact fun o ho => (List.not_mem_nil ho).elim
    · exact transmit_type env s.membership _ (claimTask_gossips _ _ _)
  · exact fun o ho => (List.not_mem_nil ho).elim

/-- A request for bids is answered with a bid. -/
theorem bidRequest_type (env : NodeEnv) (msg : Msg) :
    ∀ o ∈ (s.handleTaskBidRequest env msg).2, get o.msg (lit "type") = .str (lit "task_bid") := by
  unfold handleTaskBidRequest
  dsimp only
  split
  · exact fun o ho => (List.not_mem_nil ho).elim
  · split
    · exact fun o ho => (List.not_mem_nil ho).elim
    · rename_i dest _
      intro o ho
      cases dest with
      | num q => exact (List.not_mem_nil ho).elim
      | none =>
          rw [List.mem_singleton.mp ho]
          rfl
      | str x =>
          rw [List.mem_singleton.mp ho]
          rfl

/-- On receipt of anything but a request a node sends no response. -/
theorem receive_no_response (env : NodeEnv) (fromPeer : PyVal) {msg : Msg}
    (htype : get msg (lit "type") ≠ .str (lit "share_request")) :
    ∀ o ∈ (s.receive P env fromPeer msg).2,
      get o.msg (lit "type") ≠ .str (lit "share_response") := by
  have hother : ∀ {out : List Send} {name : PyStr}, name ≠ lit "share_response" →
      (∀ o ∈ out, get o.msg (lit "type") = .str name) →
      ∀ o ∈ out, get o.msg (lit "type") ≠ .str (lit "share_response") := by
    intro out name hname hout o ho hc
    rw [hout o ho] at hc
    exact hname (PyVal.str.inj hc)
  -- Of the handlers only the one for share requests sends a response.
  by_cases hgossip : isGossip msg = true
  · -- Gossip is passed on under its own type, and a response is no gossip.
    intro o ho hc
    have hrelayed := (receive_relays P s env fromPeer msg hgossip).2 o ho
    rw [PyVal.get, lookup_relayed hrelayed (by decide)] at hc
    have hno : isGossip msg = false := by
      have hget : get msg (lit "type") = .str (lit "share_response") := hc
      unfold isGossip isMembership
      rw [hget]
      decide
    rw [hno] at hgossip
    simp only [reduceCtorEq] at hgossip
  · unfold isGossip at hgossip
    simp only [Bool.or_eq_true, not_or] at hgossip
    have hne : ¬ pyEq (get msg (lit "type")) (.str (lit "share_request")) = true :=
      fun hc => htype ((pyEq_str _ _).mp hc)
    unfold receive
    simp only [if_neg hgossip.1, if_neg hgossip.2, if_neg hne]
    have hnil : ∀ o ∈ ([] : List Send), get o.msg (lit "type") ≠ .str (lit "share_response") :=
      fun o ho => (List.not_mem_nil ho).elim
    split
    · exact hother (by decide) (submit_type env msg)
    · split
      · exact hother (by decide) (bidRequest_type env msg)
      · split
        · exact hnil
        · split
          · exact hother (by decide) (award_type env msg)
          · split
            · exact hnil
            · split
              · exact hnil
              · exact hnil

/-- A node sends a party the shares it opens for the party's requests. -/
theorem receive_disclosed (hP : P.Lawful) (env : NodeEnv) (fromPeer : PyVal) (msg : Msg) (R : Key)
    (share : PyVal × Bytes) :
    (∃ o ∈ (s.receive P env fromPeer msg).2, o.dest = R ∧ Carried P o.msg share) ↔
      OpensFor P s R msg share := by
  by_cases htype : get msg (lit "type") = .str (lit "share_request")
  · rw [receive_request env fromPeer htype]
    exact answer_iff hP env htype R share
  · constructor
    · rintro ⟨o, ho, _, hcarried⟩
      exact (receive_no_response env fromPeer htype o ho hcarried.1).elim
    · exact fun h => (htype h.1).elim

end Node

/-! ## Shares and keys -/

/-- Nodes that open the same share of a sealed payload have the same key. -/
theorem ownShare_inj {P : Primitives} (hP : P.Lawful) {rand : ThresholdCipher.Rand}
    {keys : List PyVal} {plaintext sealed : PyStr} {t : Nat}
    (h : ThresholdCipher.encrypt P rand keys plaintext t = .ok sealed) {s s' : WhisperNode}
    {share : PyVal × Bytes} (hs : OwnShare P sealed s share) (hs' : OwnShare P sealed s' share) :
    ∃ own, s.cipher.pubkeyHex P = some own ∧ s'.cipher.pubkeyHex P = some own := by
  rcases ThresholdCipher.encrypt_sealed P hP h with ⟨data, ct, entries, hsealed, heq⟩
  -- A share that is opened tells the place of the key.
  have hplace : ∀ {s : WhisperNode}, OwnShare P sealed s share →
      ∃ (i : Nat) (own : PyStr), s.cipher.pubkeyHex P = some own ∧ keys[i]? = some (.str own) ∧
        share.1 = .int (i + 1) := by
    intro s hs
    unfold OwnShare at hs
    rw [heq] at hs
    rcases ThresholdCipher.decryptOwnShare_sealed hP hsealed s.cipher with
      ⟨hnone, _⟩ | ⟨i, own, e, hown, hkey, he, hopen⟩
    · rw [hnone] at hs
      exact (nomatch hs)
    · rw [hopen, Except.ok.injEq, Option.some.injEq] at hs
      refine ⟨i, own, hown, hkey, ?_⟩
      rw [← hs]
      unfold shamirSplit at he
      rw [List.getElem?_map] at he
      rcases Option.map_eq_some_iff.mp he with ⟨j, hj, hje⟩
      rcases List.getElem?_eq_some_iff.mp hj with ⟨_, hj⟩
      rw [List.getElem_range] at hj
      rw [← hje, hj]
  rcases hplace hs with ⟨i, own, hown, hkey, hx⟩
  rcases hplace hs' with ⟨i', own', hown', hkey', hx'⟩
  rw [hx, PyVal.int.injEq] at hx'
  have hi : i' = i := by omega
  rw [hi, hkey, Option.some.injEq, PyVal.str.injEq] at hkey'
  exact ⟨own, hown, by rw [hown', hkey']⟩

/-! ## Over a run -/

/-- The nodes, and everything they sent on receipt of a message. -/
structure ShareNet (ι : Type) where
  nodes : ι → WhisperNode
  sent : List Send

namespace ShareNet

variable {ι : Type}

def start (nodes : ι → WhisperNode) : ShareNet ι := ⟨nodes, []⟩

/-- What an event at a node makes it send, as far as shares are concerned. -/
def emits (P : Primitives) (s : ShareNet ι) : ι × NodeEvent → List Send
  | (i, .receive env fromPeer msg) => ((s.nodes i).receive P env fromPeer msg).2
  | _ => []

variable [DecidableEq ι]

def step (P : Primitives) (s : ShareNet ι) (e : ι × NodeEvent) : Option (ShareNet ι) :=
  ((s.nodes e.1).step P e.2).map (fun node =>
    { nodes := Function.update s.nodes e.1 node, sent := s.sent ++ s.emits P e })

/-- The shares of the payload that were sent to `R`. -/
def disclosed (P : Primitives) (sealed : PyStr) (nodes : ι → WhisperNode) (R : Key)
    (s : ShareNet ι) : Set (PyVal × Bytes) :=
  {share | (∃ i, OwnShare P sealed (nodes i) share) ∧
    ∃ o ∈ s.sent, o.dest = R ∧ Carried P o.msg share}

/-- The nodes whose shares of the payload are asked for in the name of `R`: some
    node receives a request on which it opens that share. -/
def askedFor (P : Primitives) (sealed : PyStr) (nodes : ι → WhisperNode) (R : Key)
    (es : List (ι × NodeEvent)) : Set ι :=
  {i | ∃ share, OwnShare P sealed (nodes i) share ∧ ∃ es₁ j env fromPeer msg es₂ s,
    es = es₁ ++ (j, .receive env fromPeer msg) :: es₂ ∧
      Machine.run (step P) (start nodes) es₁ = some s ∧ OpensFor P (s.nodes j) R msg share}

/-- What was sent to `R` with a share is what it asked for. -/
theorem sent_iff {P : Primitives} (hP : P.Lawful) {nodes : ι → WhisperNode}
    {es : List (ι × NodeEvent)} {s : ShareNet ι}
    (hr : Machine.run (step P) (start nodes) es = some s) (R : Key) (share : PyVal × Bytes) :
    (∃ o ∈ s.sent, o.dest = R ∧ Carried P o.msg share) ↔
      ∃ es₁ j env fromPeer msg es₂ u, es = es₁ ++ (j, .receive env fromPeer msg) :: es₂ ∧
        Machine.run (step P) (start nodes) es₁ = some u ∧ OpensFor P (u.nodes j) R msg share := by
  have hlog : ∀ (s : ShareNet ι) e s', step P s e = some s' → s'.sent = s.sent ++ s.emits P e := by
    intro s e s' h
    rcases Option.map_eq_some_iff.mp h with ⟨node, _, heq⟩
    rw [← heq]
  -- What has been sent was sent at some event, in the state before it.
  have hmem := Machine.mem_log_run hlog hr
  constructor
  · rintro ⟨o, ho, hdest, hcarried⟩
    rcases (hmem o).mp ho with hnone | ⟨es₁, ⟨j, e⟩, es₂, u, hes, hu, hemit⟩
    · exact (List.not_mem_nil hnone).elim
    · cases e with
      | receive env fromPeer msg =>
          exact ⟨es₁, j, env, fromPeer, msg, es₂, u, hes, hu,
            (receive_disclosed hP env fromPeer msg R share).mp ⟨o, hemit, hdest, hcarried⟩⟩
      | beat b => exact (List.not_mem_nil hemit).elim
      | call c => exact (List.not_mem_nil hemit).elim
      | converge => exact (List.not_mem_nil hemit).elim
      | openAuction taskId => exact (List.not_mem_nil hemit).elim
      | closeAuction taskId => exact (List.not_mem_nil hemit).elim
      | openShares k needed own => exact (List.not_mem_nil hemit).elim
      | closeShares k => exact (List.not_mem_nil hemit).elim
      | drainResults => exact (List.not_mem_nil hemit).elim
      | restart now => exact (List.not_mem_nil hemit).elim
  · rintro ⟨es₁, j, env, fromPeer, msg, es₂, u, hes, hu, hopens⟩
    rcases (receive_disclosed hP env fromPeer msg R share).mpr hopens with ⟨o, ho, hdest, hcarried⟩
    exact ⟨o, (hmem o).mpr (Or.inr ⟨es₁, _, es₂, u, hes, hu, ho⟩), hdest, hcarried⟩

/-- The shares sent to a party are those of the nodes it asked for. -/
theorem mem_disclosed {P : Primitives} (hP : P.Lawful) {sealed : PyStr} {nodes : ι → WhisperNode}
    {es : List (ι × NodeEvent)} {s : ShareNet ι}
    (hr : Machine.run (step P) (start nodes) es = some s) (R : Key) (share : PyVal × Bytes) :
    share ∈ disclosed P sealed nodes R s ↔
      ∃ i, OwnShare P sealed (nodes i) share ∧ ∃ es₁ j env fromPeer msg es₂ u,
        es = es₁ ++ (j, .receive env fromPeer msg) :: es₂ ∧
          Machine.run (step P) (start nodes) es₁ = some u ∧ OpensFor P (u.nodes j) R msg share := by
  constructor
  · rintro ⟨⟨i, hi⟩, hsent⟩
    exact ⟨i, hi, (sent_iff hP hr R share).mp hsent⟩
  · rintro ⟨i, hi, hasked⟩
    exact ⟨⟨i, hi⟩, (sent_iff hP hr R share).mpr hasked⟩

/-- There are as many of them, if the nodes have different keys. -/
theorem encard_disclosed {P : Primitives} (hP : P.Lawful) {nodes : ι → WhisperNode}
    (hkeys : ∀ i j own, (nodes i).cipher.pubkeyHex P = some own →
      (nodes j).cipher.pubkeyHex P = some own → i = j)
    {rand : ThresholdCipher.Rand} {keys : List PyVal} {plaintext sealed : PyStr} {t : Nat}
    (h : ThresholdCipher.encrypt P rand keys plaintext t = .ok sealed)
    {es : List (ι × NodeEvent)} {s : ShareNet ι}
    (hr : Machine.run (step P) (start nodes) es = some s) (R : Key) :
    (disclosed P sealed nodes R s).encard = (askedFor P sealed nodes R es).encard := by
  -- A node opens one share, and different nodes open different ones.
  obtain ⟨shareOf, hshareOf⟩ : ∃ shareOf : ι → PyVal × Bytes,
      ∀ {i share}, OwnShare P sealed (nodes i) share → shareOf i = share := by
    refine ⟨fun i => ((ThresholdCipher.decryptOwnShare P (nodes i).cipher
      sealed).toOption.bind id).getD (.none, []), fun {i share} hi => ?_⟩
    dsimp only
    rw [hi]
    rfl
  have himage : disclosed P sealed nodes R s = shareOf '' askedFor P sealed nodes R es := by
    ext share
    rw [mem_disclosed hP hr]
    constructor
    · rintro ⟨i, hi, hasked⟩
      exact ⟨i, ⟨share, hi, hasked⟩, hshareOf hi⟩
    · rintro ⟨i, ⟨share', hi, hasked⟩, heq⟩
      rw [hshareOf hi] at heq
      rw [← heq]
      exact ⟨i, hi, hasked⟩
  rw [himage]
  refine Set.InjOn.encard_image ?_
  rintro i ⟨share, hi, _⟩ j ⟨share', hj, _⟩ heq
  rw [hshareOf hi, hshareOf hj] at heq
  rw [← heq] at hj
  rcases ownShare_inj hP h hi hj with ⟨own, hown, hown'⟩
  exact hkeys i j own hown hown'

theorem askedFor_prefix (P : Primitives) (sealed : PyStr) (nodes : ι → WhisperNode) (R : Key)
    (es es' : List (ι × NodeEvent)) :
    askedFor P sealed nodes R es ⊆ askedFor P sealed nodes R (es ++ es') := by
  rintro i ⟨share, hi, es₁, j, env, fromPeer, msg, es₂, s, hes, hs, hopens⟩
  refine ⟨share, hi, es₁, j, env, fromPeer, msg, es₂ ++ es', s, ?_, hs, hopens⟩
  rw [hes, List.append_assoc, List.cons_append]

/-- Every event is possible. -/
theorem run_some (P : Primitives) (s : ShareNet ι) (es : List (ι × NodeEvent)) :
    ∃ t, Machine.run (step P) s es = some t := by
  induction es generalizing s with
  | nil => exact ⟨s, rfl⟩
  | cons e es ih =>
      obtain ⟨node, hnode⟩ : ∃ node, (s.nodes e.1).step P e.2 = some node := by
        cases e.2 with
        | _ => exact ⟨_, rfl⟩
      rcases ih ⟨Function.update s.nodes e.1 node, s.sent ++ s.emits P e⟩ with ⟨t, ht⟩
      refine ⟨t, ?_⟩
      rw [Machine.run, step, hnode]
      exact ht

end ShareNet

/-- The shares of a payload that nodes send to a party stay below the threshold
    exactly if it asks for the shares of fewer nodes than that. -/
theorem disclosed_lt_iff {ι : Type} [DecidableEq ι] (P : Primitives) (hP : P.Lawful)
    (nodes : ι → WhisperNode)
    (hkeys : ∀ i j own, (nodes i).cipher.pubkeyHex P = some own →
      (nodes j).cipher.pubkeyHex P = some own → i = j)
    (rand : ThresholdCipher.Rand) (keys : List PyVal) (plaintext sealed : PyStr) (t : Nat)
    (h : ThresholdCipher.encrypt P rand keys plaintext t = .ok sealed) (R : Key)
    (es : List (ι × NodeEvent)) :
    Machine.Throughout (ShareNet.step P) (fun s => (s.disclosed P sealed nodes R).encard < t)
      (ShareNet.start nodes) es ↔ (ShareNet.askedFor P sealed nodes R es).encard < t := by
  constructor
  · intro hthroughout
    rcases ShareNet.run_some P (ShareNet.start nodes) es with ⟨s, hs⟩
    rw [← ShareNet.encard_disclosed hP hkeys h hs R]
    exact hthroughout.last hs
  · intro hfew
    refine Machine.throughout_of_prefix _ _ _ _ (fun es₁ es₂ u hes hu => ?_)
    rw [ShareNet.encard_disclosed hP hkeys h hu R]
    rw [hes] at hfew
    exact lt_of_le_of_lt
      (Set.encard_le_encard (ShareNet.askedFor_prefix P sealed nodes R es₁ es₂)) hfew

/-! ## A party that asks -/

namespace Outsider

/-- Three nodes, each with its own key. -/
def node (i : Fin 3) : WhisperNode where
  membership := { ourKey := decimal i }
  ledger := { ourKey := decimal i }
  runtime := { shardId := 1 }
  cipher := ⟨some [UInt8.ofNat i]⟩

noncomputable def keys : List PyVal :=
  [.str (hex (reference.xPublic [0])), .str (hex (reference.xPublic [1])),
   .str (hex (reference.xPublic [2]))]

theorem sealed_some : ∃ sealed, ThresholdCipher.encrypt reference SubmitEnv.plain.thresholdRand
    keys (lit "ask") 2 = .ok sealed := ⟨_, rfl⟩

/-- A payload sealed to the three keys, two of which open it. -/
noncomputable def sealed : PyStr := sealed_some.choose

theorem sealed_eq : ThresholdCipher.encrypt reference SubmitEnv.plain.thresholdRand keys
    (lit "ask") 2 = .ok sealed := sealed_some.choose_spec

noncomputable def task : Task :=
  { taskId := .str (lit "t"), payload := .str sealed, shardId := .int 1, status := .pending
    leasedBy := .none, leaseExpires := .float 0, result := .none, createdAt := .float 0
    version := .int 1, thresholdT := .int 2 }

noncomputable def update : Msg :=
  [(lit "type", .str (lit "ledger_update")), (lit "msg_id", .str (lit "1")),
   (lit "from", .str (lit "0")), (lit "hops", .int 8), (lit "task", .dict task.toDict)]

/-- The nodes once each has learned the task. -/
noncomputable def nodes (i : Fin 3) : WhisperNode :=
  ((node i).receive reference .plain (.str (lit "0")) update).1

/-- The request of a party that is none of them. -/
def request : Msg :=
  [(lit "type", .str (lit "share_request")), (lit "msg_id", .str (lit "2")),
   (lit "from", .str (lit "r")), (lit "task_id", .str (lit "t"))]

theorem nodes_task (i : Fin 3) : (nodes i).ledger.tasks.values = [task] ∧
    (nodes i).cipher = ⟨some [UInt8.ofNat i]⟩ := by
  exact ⟨rfl, rfl⟩

theorem keys_distinct (i j : Fin 3) (own : PyStr)
    (hi : (nodes i).cipher.pubkeyHex reference = some own)
    (hj : (nodes j).cipher.pubkeyHex reference = some own) : i = j := by
  have hinj : ∀ i j : Fin 3, hex (reference.xPublic [UInt8.ofNat i]) =
      hex (reference.xPublic [UInt8.ofNat j]) → i = j := by decide +kernel
  rw [(nodes_task i).2] at hi
  rw [(nodes_task j).2] at hj
  exact hinj i j (Option.some.inj (hi.trans hj.symm))

/-- Each node has a share. -/
theorem own_share (i : Fin 3) : ∃ share, OwnShare reference sealed (nodes i) share := by
  rcases ThresholdCipher.encrypt_sealed reference reference_lawful sealed_eq with
    ⟨data, ct, entries, hsealed, heq⟩
  unfold OwnShare
  rw [heq, (nodes_task i).2]
  rcases ThresholdCipher.decryptOwnShare_sealed reference_lawful hsealed ⟨some [UInt8.ofNat i]⟩ with
    ⟨_, hno⟩ | ⟨_, _, e, _, _, _, hopen⟩
  · have hmem : .str (hex (reference.xPublic [UInt8.ofNat i])) ∈ keys := by
      fin_cases i
      · exact List.mem_cons_self ..
      · exact List.mem_cons_of_mem _ (List.mem_cons_self ..)
      · exact List.mem_cons_of_mem _ (List.mem_cons_of_mem _ (List.mem_cons_self ..))
    exact (hno _ rfl hmem).elim
  · exact ⟨_, hopen⟩

/-- The request makes a node open its share. -/
theorem request_opens {i : Fin 3} {share : PyVal × Bytes} :
    OpensFor reference (nodes i) (.str (lit "r")) request share ↔
      OwnShare reference sealed (nodes i) share := by
  have hfind : (nodes i).ledger.tasks.values.find?
      (fun t => pyEq t.taskId (get request (lit "task_id"))) = some task := by
    rw [(nodes_task i).1]
    rfl
  constructor
  · rintro ⟨_, _, _, _, _, t, payload, ht, hpayload, _, hopen⟩
    rw [hfind, Option.some.injEq] at ht
    rw [← ht] at hpayload
    rw [← PyVal.str.inj hpayload] at hopen
    exact hopen
  · intro hown
    refine ⟨rfl, rfl, rfl, rfl, (fun q h => by cases h), task, sealed, hfind, rfl, ?_, hown⟩
    rcases ThresholdCipher.encrypt_sealed reference reference_lawful sealed_eq with
      ⟨data, ct, entries, _, heq⟩
    rw [heq]
    exact startsWith_append _ _

/-- The event of the request at a node. -/
def asks (i : Fin 3) : Fin 3 × NodeEvent := (i, .receive .plain (.str (lit "r")) request)

/-- A party that has no share and never had a lease sends two requests, and gets
    the two shares that open the payload. -/
theorem reaches_threshold : .str (lit "r") ∉ keys ∧
    Machine.Throughout (ShareNet.step reference)
      (fun s => ∀ i, ∀ t ∈ (s.nodes i).ledger.tasks.values, t.leasedBy ≠ .str (lit "r"))
      (ShareNet.start nodes) [asks 0, asks 1] ∧
    ∃ s, Machine.run (ShareNet.step reference) (ShareNet.start nodes) [asks 0, asks 1] = some s ∧
      ¬ (s.disclosed reference sealed nodes (.str (lit "r"))).encard < 2 := by
  refine ⟨?_, ?_, ?_⟩
  · unfold keys
    decide +kernel
  · -- A request changes no node.
    have hsame : ∀ i, ((nodes i).receive reference .plain (.str (lit "r")) request).1 = nodes i :=
      fun i => by rw [receive_request .plain (.str (lit "r")) rfl]
    refine Machine.Throughout.mono (P := fun s => s.nodes = nodes) (fun s hs i t ht => ?_)
      (Machine.throughout_of_along _ _ (fun _ e => ∃ i, e = asks i) (fun s e s' hs he h => ?_)
        _ _ rfl (Machine.along_of_forall _ _ _ _ (fun e he _ => ?_)))
    · rw [hs, (nodes_task i).1] at ht
      rw [List.mem_singleton.mp ht]
      exact fun hc => nomatch hc
    · rcases he with ⟨i, hi⟩
      rcases Option.map_eq_some_iff.mp h with ⟨n, hn, heq⟩
      rw [hi] at hn
      have hnode : n = nodes i := by
        rw [← Option.some.inj hn, asks, hs]
        exact hsame i
      rw [← heq, hi, hnode]
      change Function.update s.nodes i (nodes i) = nodes
      rw [hs]
      exact Function.update_eq_self i nodes
    · rcases List.mem_cons.mp he with h | h
      · exact ⟨0, h⟩
      · exact ⟨1, List.mem_singleton.mp h⟩
  · rcases ShareNet.run_some reference (ShareNet.start nodes) [asks 0, asks 1] with ⟨s, hs⟩
    refine ⟨s, hs, not_lt.mpr ?_⟩
    rw [ShareNet.encard_disclosed reference_lawful keys_distinct sealed_eq hs]
    -- Both nodes that were asked have answered.
    have hpair : ({0, 1} : Set (Fin 3)).encard = 2 := Set.encard_pair (by decide)
    rw [← hpair]
    refine Set.encard_le_encard ?_
    rintro i (hi | hi)
    · rw [hi]
      rcases own_share 0 with ⟨share, hshare⟩
      exact ⟨share, hshare, [], 0, .plain, .str (lit "r"), request, [asks 1], _, rfl, rfl,
        request_opens.mpr hshare⟩
    · rw [hi]
      rcases own_share 1 with ⟨share, hshare⟩
      exact ⟨share, hshare, [asks 0], 1, .plain, .str (lit "r"), request, [], _, rfl, rfl,
        request_opens.mpr hshare⟩

/-- With one request it stays below. -/
theorem one_request : Machine.Throughout (ShareNet.step reference)
    (fun s => (s.disclosed reference sealed nodes (.str (lit "r"))).encard < (2 : Nat))
    (ShareNet.start nodes) [asks 0] := by
  refine (disclosed_lt_iff reference reference_lawful nodes keys_distinct _ keys _ sealed 2
    sealed_eq
    (.str (lit "r")) [asks 0]).mpr ?_
  -- One request can only be the one that the first node answers.
  have hone : ShareNet.askedFor reference sealed nodes (.str (lit "r")) [asks 0] ⊆ {0} := by
    rintro i ⟨share, hi, es₁, j, env, fromPeer, msg, es₂, u, hes, hu, hopens⟩
    cases es₁ with
    | nil =>
        rw [List.nil_append, List.cons.injEq] at hes
        simp only [Machine.run, Option.some.injEq] at hu
        have hj : j = 0 := (congrArg Prod.fst hes.1).symm
        have hmsg : msg = request := by
          have hevent : NodeEvent.receive .plain (.str (lit "r")) request =
            .receive env fromPeer msg := congrArg Prod.snd hes.1
          rw [NodeEvent.receive.injEq] at hevent
          exact hevent.2.2.symm
        rw [← hu, hj, hmsg] at hopens
        have hown : OwnShare reference sealed (nodes 0) share := request_opens.mp hopens
        rcases ownShare_inj reference_lawful sealed_eq hi hown with
          ⟨own, hown, hown'⟩
        exact keys_distinct i 0 own hown hown'
    | cons e es₁ =>
        rw [List.cons_append, List.cons.injEq] at hes
        exact absurd hes.2.symm (List.append_ne_nil_of_right_ne_nil _ (List.cons_ne_nil _ _))
  refine lt_of_le_of_lt (Set.encard_le_encard hone) ?_
  rw [Set.encard_singleton]
  exact Nat.one_lt_ofNat

end Outsider

end WhisperNet
