import WhisperNet.Cluster.Network
import WhisperNet.Crypto.Reference
import WhisperNet.Crypto.Signer
import WhisperNet.Ledger.Convergence

/-!
# Authenticity of Leases

Who stands behind a record that came in by gossip. Every node signs what it
gossips and is known by its signing key. The environment delivers any message
it likes, as long as it has not forged a signature: a message that passes the
check under an honest node's key has bytes which that node signed before.

Under these assumptions a record that was merged from a message under an
honest node's signature was claimed by that node. An honest node signs a
holder only if the holder is itself (`edit_holder`), so a record that names an
honest holder and is signed by an honest node is a record the holder made
(`holder_produced`).

Nothing of the kind follows from a message without a signature, which the
merge accepts as well (`unsigned_lease`).

## Main definitions

* `Identified`: Every node signs with its own key and is named by it.
* `NamesKey`: The signing key of a message is the public key of a node.
* `Unforged`: The environment neither forges signatures nor sends anything but
  decoded JSON.

## Theorems

* `signed_run`: What was sent so far was signed by its sender and claims no
  more than a lease of its own.
* `holder_produced`: A lease under an honest signature was made by its holder.
* `unsigned_lease`: A lease no one made is merged from an unsigned message.
-/

namespace WhisperNet

open TaskLedger
open PyVal (get getD)

/-! ## The environment -/

variable {ι : Type}

/-- Every node signs with its own key and is named by the public key. -/
def Identified (P : Primitives) (key : ι → Bytes) (s : Cluster ι) : Prop :=
  ∀ i, (s.ledgers i).signer = ⟨some (key i)⟩ ∧
    (s.ledgers i).ourKey = Signer.publicKeyHex P (key i)

/-- The signing key of a message is the public key of `k`. -/
def NamesKey (P : Primitives) (msg : Msg) (k : Bytes) : Prop :=
  fromhexVal (get msg (lit "signing_key")) = .ok (P.edPublic k)

/-- Messages are decoded JSON, and one that passes the signature check under
    the key of a node has bytes that the node has signed. Ids and the ids of
    submitted tasks are text that JSON can carry. -/
def Unforged (P : Primitives) (key : ι → Bytes) (s : Cluster ι) : Event ι → Prop
  | .call _ c uuid => (∀ t, hasPair (uuid t) = false) ∧
      ∀ env taskId payload shardId submitterKey,
        c = .submitTask env taskId payload shardId submitterKey → hasPair taskId = false
  | .deliver _ msg => Wire (.dict msg) ∧ ∀ j, NamesKey P msg (key j) →
      (get msg (lit "signature")).truthy = true → verify P msg = true →
      ∃ x ∈ s.produced, x.node = j ∧ ∃ d, canonical P x.msg = .ok d ∧ canonical P msg = .ok d
  | .stop _ => True

/-- A ledger whose records are filed under their ids, all of them text that
    JSON can carry. -/
structure Filed (L : TaskLedger) : Prop where
  keys : KeysMatch L
  wire : ∀ s t, L.tasks.get? (.str s) = some t → hasPair s = false

theorem Filed.wire_taskId {L : TaskLedger} (h : Filed L) {k : Key} {t : Task}
    (ht : L.tasks.get? k = some t) : Wire t.taskId := by
  have hkey := h.keys k t ht
  cases hid : t.taskId with
  | str s =>
      rw [hid] at hkey
      have hk : k = .str s := (Except.ok.inj hkey).symm
      rw [hk] at ht
      exact h.wire s t ht
  | none => trivial
  | bool b => trivial
  | int n => trivial
  | float q => trivial
  | list xs =>
      rw [hid] at hkey
      exact absurd hkey (by simp only [hashKey, reduceCtorEq, not_false_eq_true])
  | dict kvs =>
      rw [hid] at hkey
      exact absurd hkey (by simp only [hashKey, reduceCtorEq, not_false_eq_true])

theorem filed_call (P : Primitives) (L : TaskLedger) (c : Call) (h : Filed L)
    (hc : ∀ env taskId payload shardId submitterKey,
      c = .submitTask env taskId payload shardId submitterKey → hasPair taskId = false) :
    Filed (c.run P L).1 := by
  refine ⟨run_keysMatch P L c h.keys, fun s t ht => ?_⟩
  rcases (run_edits P L c).record (.str s) with hsame | ⟨new, _, hedit, _⟩
  · exact h.wire s t (by rw [← hsame, ht])
  · rcases edit_old hedit with ⟨old, hold⟩ | ⟨env, taskId, payload, shardId, sub, hcall, hk⟩
    · exact h.wire s old hold
    · rw [Key.str.injEq] at hk
      rw [hk]
      exact hc env taskId payload shardId sub hcall

theorem filed_update (P : Primitives) (L : TaskLedger) (msg : Msg) (h : Filed L)
    (hmsg : Wire (.dict msg)) : Filed (L.handleLedgerUpdate P msg).ledger := by
  refine ⟨update_keysMatch P L msg h.keys, fun s t ht => ?_⟩
  rcases L.handleLedgerUpdate_cases P msg with ⟨hsame, _⟩ |
      ⟨d, incoming, key, hd, hfd, hkey, _, _, hset, _⟩
  · exact h.wire s t (by rw [← hsame, ht])
  · rw [hset, Dict.get?_set] at ht
    by_cases hk : Key.str s = key
    · -- The id of the new record is a value of the message.
      have hid := (Task.fromDict_fields d incoming hfd).1
      have hwire : Wire (.dict d) := by
        rw [← hd]
        exact hmsg.get _
      have hval : Wire incoming.taskId := by
        simp only [Wire] at hwire
        exact hwire.2.lookup hid
      rw [← hk] at hkey
      rw [(hashKey_eq_str _ _).mp hkey] at hval
      exact hval
    · rw [if_neg hk] at ht
      exact h.wire s t ht

/-! ## What honest nodes have signed -/

/-- A message a node made of a record: signed by its key, its signed values
    plain, and the record a lease or a result of its own or of no one. -/
structure Signed (P : Primitives) (key : ι → Bytes) (x : Sending ι) : Prop where
  claim : WireClaim x.msg
  task : get x.msg (lit "task") = .dict x.record.toDict
  holder : (x.record.leasedBy = .str (Signer.publicKeyHex P (key x.node)) ∧
      (x.record.status = .inProgress ∨ x.record.status = .completed)) ∨
    (x.record.leasedBy = .none ∧ x.record.status = .pending)
  hashable : ∃ k, hashKey x.record.taskId = .ok k
  version : (∃ n, x.record.version = .int n) ∨ ∃ q, x.record.version = .float q

/-- The invariant of a run: keys, ids, and everything sent so far. -/
structure Honest (P : Primitives) (key : ι → Bytes) (s : Cluster ι) : Prop where
  identified : Identified P key s
  filed : ∀ i, Filed (s.ledgers i)
  signed : ∀ x ∈ s.produced, Signed P key x

theorem toDict_ne_nil (t : Task) : t.toDict ≠ [] := by
  unfold Task.toDict
  simp only [ne_eq, reduceCtorEq, not_false_eq_true]

/-- What a node makes of a record it has just edited. -/
theorem signed_of_gossip (P : Primitives) (key : ι → Bytes) (i : ι) (L L' : TaskLedger)
    (c : Call) (uuid : PyStr) (t : Task) (msg : Msg)
    (hown : L.ourKey = Signer.publicKeyHex P (key i)) (huuid : hasPair uuid = false)
    (hfiled : Filed L') (k : Key) (hheld : L'.tasks.get? k = some t)
    (hedit : Edit L k (L.tasks.get? k) t c)
    (hv : (∃ old, L.tasks.get? k = some old ∧ old.version.incr = .ok t.version) ∨
      t.version = .int 1)
    (hmsg : L'.gossipTask P uuid t = .ok msg) : Signed P key ⟨i, t, msg⟩ := by
  have hholder := edit_holder hedit
  rw [hown] at hholder
  have hnumber : (∃ n, t.version = .int n) ∨ ∃ q, t.version = .float q := by
    rcases hv with ⟨old, _, hincr⟩ | h1
    · exact incr_number _ _ hincr
    · exact Or.inl ⟨1, h1⟩
  have hfields := gossip_fields hmsg
  have htask := taskOrEmpty_dict msg t.toDict hfields.2 (toDict_ne_nil t)
  refine ⟨?_, hfields.2, hholder, ⟨k, hfiled.keys k t hheld⟩, hnumber⟩
  -- The five signed values: two texts, a status, a holder and a number.
  intro f hf
  have hnd := canonicalFields_nodup msg f hf
  rcases canonicalFields_ok msg f hf with ⟨task, ht, hfeq⟩
  rw [htask, PyVal.dict.injEq] at ht
  have hid : getD msg (lit "msg_id") (.str []) = .str uuid := by
    have hget := hfields.1
    unfold PyVal.get at hget
    unfold PyVal.getD
    cases hl : lookup (lit "msg_id") msg with
    | none =>
        rw [hl] at hget
        exact absurd hget (by simp only [Option.getD_none, reduceCtorEq, not_false_eq_true])
    | some v =>
        rw [hl] at hget
        exact hget
  have hstatus : Wire t.status.toVal := by
    rcases hholder with ⟨_, hs | hs⟩ | ⟨_, hs⟩
    · rw [hs]
      rfl
    · rw [hs]
      rfl
    · rw [hs]
      rfl
  have hkey : Wire (holderOrEmpty t.toDict) := by
    have hget : get t.toDict (lit "leased_by") = t.leasedBy := rfl
    unfold holderOrEmpty
    rw [hget]
    rcases hholder with ⟨hl, _⟩ | ⟨hl, _⟩
    · rw [hl]
      split
      · exact hasPair_of_ascii _ (hex_ascii _)
      · rfl
    · rw [hl]
      rfl
  have hversion : Wire t.version := by
    rcases hnumber with ⟨n, hn⟩ | ⟨q, hq⟩
    · rw [hn]
      trivial
    · rw [hq]
      trivial
  rw [← ht, hid] at hfeq
  rw [hfeq] at hnd ⊢
  exact ⟨hnd, by decide, huuid, by decide, hfiled.wire_taskId hheld, by decide, hstatus,
    by decide, hkey, by decide, hversion, trivial⟩

/-- Two names that are equal belong to one node. -/
theorem publicKeyHex_inj (P : Primitives) (k k' : Bytes)
    (h : Signer.publicKeyHex P k = Signer.publicKeyHex P k') : P.edPublic k = P.edPublic k' := by
  have hk := fromhex_hex (P.edPublic k)
  unfold Signer.publicKeyHex at h
  rw [h, fromhex_hex, Except.ok.injEq] at hk
  exact hk.symm

/-- A node signed a record that makes the same claim as `t`, and `t` names an
    honest holder: then the node is that holder. -/
theorem holder_of_sameClaim (P : Primitives) (hP : P.Lawful) (key : ι → Bytes)
    (hkey : Function.Injective (fun i => P.edPublic (key i))) (x : Sending ι)
    (hx : Signed P key x) (msg d : Msg) (t : Task) (hd : get msg (lit "task") = .dict d)
    (hfd : Task.fromDict d = .ok t) (hk : ∃ k, hashKey t.taskId = .ok k)
    (hsame : SameClaim x.msg msg) (H : ι)
    (hH : t.leasedBy = .str (Signer.publicKeyHex P (key H))) :
    x.node = H ∧ x.record.taskId = t.taskId ∧ x.record.leasedBy = t.leasedBy ∧
      x.record.status = t.status ∧ x.record.version = t.version := by
  rcases Task.fromDict_fields d t hfd with ⟨hid, hst, hlb, hver⟩
  have hne : d ≠ [] := by
    intro hc
    rw [hc] at hid
    exact absurd hid (by simp only [lookup, reduceCtorEq, not_false_eq_true])
  rcases hsame with ⟨task, task', htask, htask', _, hsid, hsstatus, hsholder, hsversion⟩
  rw [taskOrEmpty_dict _ _ hx.task (toDict_ne_nil _), PyVal.dict.injEq] at htask
  rw [taskOrEmpty_dict _ _ hd hne, PyVal.dict.injEq] at htask'
  -- Read the claimed values off both records.
  have hid' : getD d (lit "task_id") (.str []) = t.taskId := by
    rw [PyVal.getD, hid]
    rfl
  have hst' : getD d (lit "status") (.str []) = t.status.toVal := by
    rw [PyVal.getD, hst]
    rfl
  have hlb' : get d (lit "leased_by") = t.leasedBy := by
    rw [PyVal.get, hlb]
    rfl
  have hver' : getD d (lit "version") (.int 0) = t.version := hver
  rw [← htask, ← htask', hid'] at hsid
  rw [← htask, ← htask', hst'] at hsstatus
  rw [← htask, ← htask'] at hsholder
  rw [← htask, ← htask', hver'] at hsversion
  have htaskId : x.record.taskId = t.taskId := by
    rcases hx.hashable with ⟨k, hxk⟩
    rcases hk with ⟨k', htk⟩
    exact same_hashable _ _ k k' hxk htk hsid
  have hversion : x.record.version = t.version := same_number _ _ hx.version hsversion
  have hstatus : x.record.status = t.status := by
    have hread : getD x.record.toDict (lit "status") (.str []) = x.record.status.toVal := rfl
    rw [hread] at hsstatus
    have hval : t.status.toVal = x.record.status.toVal := by
      rcases hx.holder with ⟨_, hs | hs⟩ | ⟨_, hs⟩
      · rw [hs] at hsstatus ⊢
        exact same_str _ _ hsstatus
      · rw [hs] at hsstatus ⊢
        exact same_str _ _ hsstatus
      · rw [hs] at hsstatus ⊢
        exact same_str _ _ hsstatus
    rw [← Status.ofVal_toVal x.record.status, ← hval, Status.ofVal_toVal]
  have hnonempty : ∀ i, Signer.publicKeyHex P (key i) ≠ [] :=
    fun i => hex_nonempty _ (hP.edPublic_nonempty _)
  have hholder : holderOrEmpty d = .str (Signer.publicKeyHex P (key H)) := by
    unfold holderOrEmpty
    rw [hlb', hH, if_pos (str_truthy _ (hnonempty H))]
  rw [hholder] at hsholder
  have hread : get x.record.toDict (lit "leased_by") = x.record.leasedBy := rfl
  unfold holderOrEmpty at hsholder
  rw [hread] at hsholder
  rcases hx.holder with ⟨hl, _⟩ | ⟨hl, _⟩
  · rw [hl, if_pos (str_truthy _ (hnonempty x.node))] at hsholder
    have hname := same_str _ _ hsholder
    rw [PyVal.str.injEq] at hname
    have hnode : H = x.node := hkey (publicKeyHex_inj P _ _ hname)
    refine ⟨hnode.symm, htaskId, ?_, hstatus, hversion⟩
    rw [hl, hH, hnode]
  · -- A record of no one does not make the claim.
    rw [hl] at hsholder
    have hname := same_str _ [] hsholder
    rw [PyVal.str.injEq] at hname
    exact absurd hname (hnonempty H)

/-! ## Runs -/

variable [DecidableEq ι]

/-- A step that changes the ledger of one node, and leaves its name. -/
theorem Honest.set {P : Primitives} {key : ι → Bytes} {s s' : Cluster ι} (h : Honest P key s)
    {i : ι} {L : TaskLedger} (hledgers : s'.ledgers = Function.update s.ledgers i L)
    (hid : L.ourKey = (s.ledgers i).ourKey ∧ L.signer = (s.ledgers i).signer) (hfiled : Filed L)
    (hsigned : ∀ x ∈ s'.produced, Signed P key x) : Honest P key s' := by
  refine ⟨fun j => ?_, fun j => ?_, hsigned⟩
  · rw [hledgers]
    by_cases hj : j = i
    · rw [hj, Function.update_self, hid.1, hid.2]
      exact h.identified i
    · rw [Function.update_of_ne hj]
      exact h.identified j
  · rw [hledgers]
    by_cases hj : j = i
    · rw [hj, Function.update_self]
      exact hfiled
    · rw [Function.update_of_ne hj]
      exact h.filed j

/-- One step: calls sign what they gossip, deliveries sign nothing. -/
theorem honest_step (P : Primitives) (key : ι → Bytes) (s : Cluster ι) (e : Event ι)
    (s' : Cluster ι) (h : Honest P key s) (hok : Unforged P key s e)
    (hstep : s.step P e = some s') : Honest P key s' := by
  cases e with
  | call i c uuid =>
      rcases Cluster.step_call hstep with ⟨_, _, hledgers, hproduced, _, _⟩
      have hfiled := filed_call P (s.ledgers i) c (h.filed i) hok.2
      refine h.set hledgers (run_identity P (s.ledgers i) c) hfiled (fun x hx => ?_)
      rw [hproduced] at hx
      rcases List.mem_append.mp hx with hx | hx
      · exact h.signed x hx
      · -- What the call sent is about records it has just edited.
        rcases mem_sendings P _ i uuid _ x hx with ⟨hnode, hout, hmsg⟩
        rcases (run_edits P (s.ledgers i) c).gossip x.record hout with ⟨k, hheld, hedit, hv⟩
        have hsig := signed_of_gossip P key i (s.ledgers i) _ c (uuid x.record) x.record x.msg
          (h.identified i).2 (hok.1 _) hfiled k hheld hedit hv hmsg
        rw [← hnode] at hsig
        exact hsig
  -- A delivery produces no message of its own.
  | deliver i msg =>
      rcases Cluster.step_deliver hstep with ⟨_, _, hledgers, hproduced, _, _⟩
      refine h.set hledgers (update_identity P (s.ledgers i) msg)
        (filed_update P (s.ledgers i) msg (h.filed i) hok.1) (fun x hx => ?_)
      rw [hproduced] at hx
      exact h.signed x hx
  | stop i =>
      rcases Cluster.step_stop hstep with ⟨_, hledgers, hproduced, _, _⟩
      refine ⟨fun j => ?_, fun j => ?_, fun x hx => ?_⟩
      · rw [hledgers]
        exact h.identified j
      · rw [hledgers]
        exact h.filed j
      · rw [hproduced] at hx
        exact h.signed x hx

/-- The invariant over a run, in the state it ends in. -/
theorem signed_run (P : Primitives) (key : ι → Bytes) (s₀ s : Cluster ι) (es : List (Event ι))
    (h₀ : Honest P key s₀) (hok : Machine.Along (Cluster.step P) (Unforged P key) s₀ es)
    (hrun : Machine.run (Cluster.step P) s₀ es = some s) : Honest P key s :=
  Machine.invariant_run (Cluster.step P) (Honest P key) (Unforged P key)
    (fun s e s' h hok hstep => honest_step P key s e s' h hok hstep) h₀ hok hrun

/-- A record that a delivery makes a node hold, signed under the key of a node
    and naming a node as its holder: the holder itself produced a record of the
    same task with that holder, status and version. -/
theorem holder_produced (P : Primitives) (hP : P.Lawful) (key : ι → Bytes)
    (hkey : Function.Injective (fun i => P.edPublic (key i))) (s₀ s s' : Cluster ι)
    (es : List (Event ι)) (i : ι) (msg : Msg) (hid : Identified P key s₀)
    (hfiled : ∀ i, Filed (s₀.ledgers i)) (hfresh : s₀.produced = [])
    (hok : Machine.Along (Cluster.step P) (Unforged P key) s₀ es)
    (hrun : Machine.run (Cluster.step P) s₀ es = some s)
    (hdel : Unforged P key s (.deliver i msg)) (hstep : s.step P (.deliver i msg) = some s')
    (k : Key) (t : Task) (hheld : (s'.ledgers i).tasks.get? k = some t)
    (hnew : (s.ledgers i).tasks.get? k ≠ some t)
    (hsigned : (get msg (lit "signature")).truthy = true) (j : ι) (hj : NamesKey P msg (key j))
    (H : ι) (hH : t.leasedBy = .str (Signer.publicKeyHex P (key H))) :
    ∃ x ∈ s.produced, x.node = H ∧ x.record.taskId = t.taskId ∧
      x.record.leasedBy = t.leasedBy ∧ x.record.status = t.status ∧
      x.record.version = t.version := by
  have h₀ : Honest P key s₀ := ⟨hid, hfiled, fun x hx => by
    rw [hfresh] at hx
    exact absurd hx List.not_mem_nil⟩
  have hs := signed_run P key s₀ s es h₀ hok hrun
  rcases Cluster.step_deliver hstep with ⟨_, _, hledgers, _⟩
  rw [hledgers, Function.update_self] at hheld
  -- The record is new at the node, so the message brought it.
  rcases (s.ledgers i).handleLedgerUpdate_cases P msg with ⟨hsame, _⟩ |
      ⟨d, incoming, k', hd, hfd, hk', hverify, _, hset, _⟩
  · rw [hsame] at hheld
    exact absurd hheld hnew
  · rw [hset, Dict.get?_set] at hheld
    by_cases hkk : k = k'
    · rw [if_pos hkk, Option.some.injEq] at hheld
      rw [hheld] at hfd hk'
      rcases hdel.2 j hj hsigned hverify with ⟨x, hx, _, b, hb, hb'⟩
      have hxs := hs.signed x hx
      have hsame := (canonical_eq_iff P hP x.msg msg b hxs.claim (wireClaim_of_wire msg hdel.1)
        hb).mp hb'
      exact ⟨x, hx, holder_of_sameClaim P hP key hkey x hxs msg d t hd hfd ⟨k', hk'⟩ hsame H hH⟩
    · rw [if_neg hkk] at hheld
      exact absurd hheld hnew

namespace Authentic

def key (b : Bool) : Bytes := if b then [1] else [0]

/-- The public key of a node, as text. -/
def name (b : Bool) : PyStr := hex (1 :: key b)

def waiting : Task where
  taskId := .str (lit "t")
  payload := .str (lit "p")
  shardId := .int 1
  status := .pending
  leasedBy := .none
  leaseExpires := .float 0
  result := .none
  createdAt := .float 0
  version := .int 1

/-- The record as the first node claims it at time zero. -/
def claimed : Task := { waiting with
  status := .inProgress
  leasedBy := .str (name false)
  leaseExpires := .float 30
  claimedAt := .float 0
  commitment := .str (lit "3c631e47a744585c")
  version := .int 2 }

def ledger (b : Bool) : TaskLedger :=
  { ourKey := name b, signer := ⟨some (key b)⟩,
    tasks := if b then Dict.empty else Dict.empty.set (.str (lit "t")) waiting }

/-- Two nodes that sign; the first one knows of a task. -/
def cluster : Cluster Bool := ⟨ledger, fun _ => true, [], [], []⟩

def claimEvent : Event Bool := .call false (.claimTask (lit "t") 0) (fun _ => lit "u")

/-- The update about the claim, before it is signed. -/
def claimFields : Msg :=
  [(lit "type", .str (lit "ledger_update")), (lit "msg_id", .str (lit "u")),
   (lit "from", .str (name false)), (lit "hops", .int gossipHops),
   (lit "task", .dict claimed.toDict)]

theorem wire_claimFields : Wire (.dict claimFields) := by
  have htask : Wire (.dict claimed.toDict) := by
    refine ⟨by decide, ?_⟩
    simp only [Task.toDict, WireItems, Wire, claimed, waiting, Status.toVal, inProgressVal,
      and_true]
    decide
  exact ⟨by decide, rfl, rfl, rfl, rfl, rfl, rfl, rfl, trivial, rfl, htask, trivial⟩

theorem identified : Identified reference key cluster := fun _ => ⟨rfl, rfl⟩

theorem filed (b : Bool) : Filed (cluster.ledgers b) := by
  cases b with
  | true => exact ⟨fun k t ht => (nomatch ht), fun s t ht => (nomatch ht)⟩
  | false =>
      have hget : ∀ k t, (cluster.ledgers false).tasks.get? k = some t →
          k = .str (lit "t") ∧ t = waiting := by
        intro k t ht
        change (Dict.empty.set (.str (lit "t")) waiting).get? k = some t at ht
        rw [Dict.get?_set] at ht
        by_cases hk : k = .str (lit "t")
        · rw [if_pos hk, Option.some.injEq] at ht
          exact ⟨hk, ht.symm⟩
        · rw [if_neg hk] at ht
          exact absurd ht (fun hc => nomatch hc)
      constructor
      · intro k t ht
        rcases hget k t ht with ⟨rfl, rfl⟩
        rfl
      · intro s t ht
        rw [Key.str.inj (hget _ t ht).1]
        rfl

/-- What the claim sends: one signed update. -/
theorem claim_sends : ∃ msg d, canonical reference msg = .ok d ∧ Wire (.dict msg) ∧
    get msg (lit "signature") = .str (reference.b64encode (reference.edSign (key false) d)) ∧
    get msg (lit "signing_key") = .str (name false) ∧
    sendings reference ((Call.claimTask (lit "t") 0).run reference (ledger false)).1 false
      (fun _ => lit "u") ((Call.claimTask (lit "t") 0).run reference (ledger false)).2
      = [⟨false, claimed, msg⟩] := by
  have hout : ((Call.claimTask (lit "t") 0).run reference (ledger false)).2 =
      [.gossip claimed] := by
    decide +kernel
  have hid := run_identity reference (ledger false) (.claimTask (lit "t") 0)
  rcases canonical_ok reference reference_lawful claimFields _ rfl with ⟨d, hd, _⟩
  refine ⟨assign (lit "signing_key") (.str (name false)) (assign (lit "signature")
    (.str (reference.b64encode (reference.edSign (key false) d))) claimFields), d, ?_, ?_, rfl,
    rfl, ?_⟩
  · rw [canonical_signed, hd]
  · exact wire_assign _ _ _ (wire_assign _ _ _ wire_claimFields (by decide)
      (hasPair_of_ascii _ (Reference.b64_ascii _))) (by decide) (hasPair_of_ascii _ (hex_ascii _))
  · -- What leaves the node is the claim with its signature and the key for it.
    have hmsg : TaskLedger.gossipTask ((Call.claimTask (lit "t") 0).run reference (ledger false)).1
        reference (lit "u") claimed = .ok (assign (lit "signing_key") (.str (name false))
          (assign (lit "signature") (.str (reference.b64encode (reference.edSign (key false) d)))
            claimFields)) := by
      unfold gossipTask
      rw [hid.1, hid.2]
      change Signer.sign reference ⟨some (key false)⟩ claimFields = _
      unfold Signer.sign
      simp only [hd]
      rfl
    rw [hout]
    unfold sendings
    simp only [List.filterMap_cons, hmsg, List.filterMap_nil]

/-- The second node merges the signed claim of the first, who produced it. -/
theorem claim_produced : ∃ s s' msg,
    Machine.run (Cluster.step reference) cluster [claimEvent] = some s ∧
    s.step reference (.deliver true msg) = some s' ∧
    (s'.ledgers true).find? (lit "t") = some claimed ∧
    ∃ x ∈ s.produced, x.node = false ∧ x.record.taskId = claimed.taskId ∧
      x.record.leasedBy = claimed.leasedBy ∧ x.record.status = claimed.status ∧
      x.record.version = claimed.version := by
  rcases claim_sends with ⟨msg, d, hd, hwire, hsig, hkey, hsend⟩
  have hkeys : Function.Injective (fun b => reference.edPublic (key b)) := by
    intro a b h
    cases a with
    | true => cases b with
      | true => rfl
      | false => exact absurd h (by decide)
    | false => cases b with
      | true => exact absurd h (by decide)
      | false => rfl
  have hrun : ∃ s, Machine.run (Cluster.step reference) cluster [claimEvent] = some s ∧
      s.produced = [⟨false, claimed, msg⟩] ∧ s.running true = true ∧
      s.ledgers true = ledger true := by
    exact ⟨_, rfl, hsend, rfl, rfl⟩
  rcases hrun with ⟨s, hs, hproduced, hrunning, hledger⟩
  have hok : Machine.Along (Cluster.step reference) (Unforged reference key) cluster
      [claimEvent] := by
    intro s' _
    refine ⟨⟨fun _ => rfl, ?_⟩, trivial⟩
    intro env taskId payload shardId sub hc
    exact absurd hc (by simp only [reduceCtorEq, not_false_eq_true])
  have hverify : fromhexVal (get msg (lit "signing_key")) =
      .ok (reference.edPublic (key false)) := by
    rw [hkey]
    exact fromhex_hex _
  have hdel : Unforged reference key s (.deliver true msg) := by
    refine ⟨hwire, fun j hj _ _ => ?_⟩
    unfold NamesKey at hj
    rw [hverify, Except.ok.injEq] at hj
    have hjf : false = j := hkeys hj
    rw [hproduced]
    exact ⟨⟨false, claimed, msg⟩, List.mem_singleton.mpr rfl, hjf, d, hd, hd⟩
  have hstep : ∃ s', s.step reference (.deliver true msg) = some s' ∧
      s'.ledgers true = ((ledger true).handleLedgerUpdate reference msg).ledger := by
    simp only [Cluster.step, hrunning, if_true, Option.some.injEq, exists_eq_left', hledger,
      Function.update_self]
  rcases hstep with ⟨s', hs', hledger'⟩
  -- The message is an update, so the merge into an empty ledger installs it.
  have hmem : ⟨false, claimed, msg⟩ ∈ sendings reference
      ((Call.claimTask (lit "t") 0).run reference (ledger false)).1 false (fun _ => lit "u")
      ((Call.claimTask (lit "t") 0).run reference (ledger false)).2 := by
    rw [hsend]
    exact List.mem_singleton.mpr rfl
  rcases mem_sendings reference _ _ _ _ _ hmem with ⟨_, _, hmsg⟩
  rcases gossip_update reference reference_lawful _ (lit "u") (lit "t") claimed msg hmsg (by decide)
    rfl rfl with ⟨u, hu, _, hrec⟩
  have hmerge := merge_update reference (lit "t") u (ledger true) (fun _ ht => by cases ht)
    List.not_mem_nil
  rw [hu, hrec] at hmerge
  have hheld : (s'.ledgers true).find? (lit "t") = some claimed := by
    rw [hledger', hmerge]
    rfl
  refine ⟨s, s', msg, hs, hs', hheld, ?_⟩
  refine holder_produced reference reference_lawful key hkeys cluster s s' [claimEvent] true msg
    identified filed rfl hok hs hdel hs' (.str (lit "t")) claimed hheld ?_ ?_ false hverify false
    rfl
  · rw [hledger]
    exact fun hc => by cases hc
  · rw [hsig]
    exact str_truthy _ (reference_lawful.b64_nonempty _ (reference_lawful.edSign_nonempty _ _))

/-- An update without a signature that names the first node as the holder. -/
def forged : Msg :=
  [(lit "type", .str (lit "ledger_update")), (lit "msg_id", .str (lit "x")),
   (lit "from", .str (name false)), (lit "hops", .int gossipHops),
   (lit "task", .dict claimed.toDict)]

/-- The environment forges no signature, no node has produced any record, and
    the second node holds the task as leased by the first. -/
theorem unsigned_lease : ∃ s', Unforged reference key cluster (.deliver true forged) ∧
    cluster.step reference (.deliver true forged) = some s' ∧ s'.produced = [] ∧
    ∃ t, (s'.ledgers true).find? (lit "t") = some t ∧ t.status = .inProgress ∧
      t.leasedBy = .str (Signer.publicKeyHex reference (key false)) := by
  have hwire : Wire (.dict forged) := by
    have hd : Wire (.dict claimed.toDict) := wire_claimFields.get (lit "task")
    exact ⟨by decide, rfl, rfl, rfl, rfl, rfl, rfl, rfl, trivial, rfl, hd, trivial⟩
  have hheld : ((ledger true).handleLedgerUpdate reference forged).ledger.find? (lit "t")
      = some claimed := by
    decide +kernel
  refine ⟨_, ⟨hwire, fun j hj _ _ => ?_⟩, rfl, rfl, claimed, hheld, rfl, rfl⟩
  exact absurd hj (by
    unfold NamesKey
    exact fun hc => by cases hc)

end Authentic

end WhisperNet
