import WhisperNet.Crypto.Primitives

/-!
# Ledger Message Signatures

The `Signer` of `whisper/crypto.py`. The bytes that are signed are not the
message but a projection of it: the message id and four fields of the task
record. `canonicalFields` is that projection, `SameClaim` is the relation it
induces on messages, and `canonical_eq_iff` says that two messages have the
same bytes exactly when they are related by it.

A message without a signature is accepted. So is a message signed with any
key whatsoever, the key being the one the message names itself; what the
check establishes is only that the holder of the named key signed these five
values.

## Main definitions

* `canonicalFields`: The dictionary `_canonical` serialises.
* `canonical`: The bytes to sign.
* `Signer`: A node's signing key, if it has one.
* `Signer.sign`: The message with its signature added.
* `verify`: The check of a received message.
* `SameClaim`: Two messages agree on everything that is signed.

## Theorems

* `same_hashable`, `same_str`, `same_number`: On plain values, being the same is
  being equal.
* `canonical_eq_iff`: Equal bytes are equal claims.
* `verify_unsigned`: A message without a signature is accepted.
* `verify_signature_iff`: A signed message is accepted exactly when its bytes
  are the ones that were signed.
* `sign_ok`: What `sign` adds to a message.
* `sign_exists`: Signing succeeds on every message with a task to read.
* `canonical_assign`: Fields outside the projection do not matter.
-/

namespace WhisperNet

open PyVal (get getD)

/-- `msg.get("task") or {}`. -/
def taskOrEmpty (msg : Msg) : PyVal :=
  if (get msg (lit "task")).truthy then get msg (lit "task") else .dict []

/-- `task.get("leased_by") or ""`. -/
def holderOrEmpty (task : Msg) : PyVal :=
  if (get task (lit "leased_by")).truthy then get task (lit "leased_by") else .str []

/-- The dictionary that `_canonical` serialises. -/
def canonicalFields (msg : Msg) : Except PyErr Msg :=
  match taskOrEmpty msg with
  | .dict task => .ok
    [(lit "msg_id", getD msg (lit "msg_id") (.str [])),
     (lit "task_id", getD task (lit "task_id") (.str [])),
     (lit "status", getD task (lit "status") (.str [])),
     (lit "leased_by", holderOrEmpty task),
     (lit "version", getD task (lit "version") (.int 0))]
  | _ => .error .attributeError

/-- `_canonical`: the bytes a signature covers. -/
def canonical (P : Primitives) (msg : Msg) : Except PyErr Bytes :=
  match canonicalFields msg with
  | .ok fields => encode (P.dumpsSorted (.dict fields))
  | .error e => .error e

/-- A node's Ed25519 key, absent when signing is not configured. -/
structure Signer where
  privateKey : Option Bytes
  deriving DecidableEq

namespace Signer

def enabled (s : Signer) : Bool := s.privateKey.isSome

/-- The signing key as it travels in a message. -/
def publicKeyHex (P : Primitives) (k : Bytes) : PyStr := hex (P.edPublic k)

def sign (P : Primitives) (s : Signer) (msg : Msg) : Except PyErr Msg :=
  match s.privateKey with
  | none => .ok msg
  | some k => match canonical P msg with
    | .error e => .error e
    | .ok data => .ok (assign (lit "signing_key") (.str (publicKeyHex P k))
        (assign (lit "signature") (.str (P.b64encode (P.edSign k data))) msg))

end Signer

/-- The body of the `try` block of `verify`. -/
def checkSignature (P : Primitives) (sigB64 keyHex : PyVal) (msg : Msg) : Except PyErr Unit :=
  match fromhexVal keyHex, P.b64decode sigB64, canonical P msg with
  | .ok pub, .ok sig, .ok data => P.edVerify pub sig data
  | _, _, _ => .error .valueError

/-- `Signer.verify`: unsigned messages are accepted, errors reject. -/
def verify (P : Primitives) (msg : Msg) : Bool :=
  if !(get msg (lit "signature")).truthy || !(get msg (lit "signing_key")).truthy then true
  else match checkSignature P (get msg (lit "signature")) (get msg (lit "signing_key")) msg with
    | .ok _ => true
    | .error _ => false

/-! ## What a signature covers -/

/-- Equal up to the order of dictionary items. -/
def Same (v w : PyVal) : Prop := sortKeys v = sortKeys w

/-- Both messages have a task to read and agree on the five signed values: the
    message id, and the task's id, status, holder (none and empty alike) and
    version. -/
def SameClaim (m m' : Msg) : Prop :=
  ∃ task task', taskOrEmpty m = .dict task ∧ taskOrEmpty m' = .dict task' ∧
    Same (getD m (lit "msg_id") (.str [])) (getD m' (lit "msg_id") (.str [])) ∧
    Same (getD task (lit "task_id") (.str [])) (getD task' (lit "task_id") (.str [])) ∧
    Same (getD task (lit "status") (.str [])) (getD task' (lit "status") (.str [])) ∧
    Same (holderOrEmpty task) (holderOrEmpty task') ∧
    Same (getD task (lit "version") (.int 0)) (getD task' (lit "version") (.int 0))

/-- A value that can be a dictionary key has nothing in it to sort. -/
theorem sortKeys_hashable (v : PyVal) (k : Key) (h : hashKey v = .ok k) : sortKeys v = v := by
  cases v with
  | none => rfl
  | bool b => rfl
  | int n => rfl
  | float q => rfl
  | str s => rfl
  | list xs => exact absurd h (by simp only [hashKey, reduceCtorEq, not_false_eq_true])
  | dict kvs => exact absurd h (by simp only [hashKey, reduceCtorEq, not_false_eq_true])

theorem same_hashable (v w : PyVal) (k k' : Key) (hv : hashKey v = .ok k)
    (hw : hashKey w = .ok k') (h : Same v w) : v = w := by
  unfold Same at h
  rw [sortKeys_hashable v k hv, sortKeys_hashable w k' hw] at h
  exact h

theorem same_str (v : PyVal) (s : PyStr) (h : Same (.str s) v) : v = .str s := by
  unfold Same at h
  cases v with
  | str s' => exact h.symm
  | none => exact absurd h (by simp only [sortKeys, reduceCtorEq, not_false_eq_true])
  | bool b => exact absurd h (by simp only [sortKeys, reduceCtorEq, not_false_eq_true])
  | int n => exact absurd h (by simp only [sortKeys, reduceCtorEq, not_false_eq_true])
  | float q => exact absurd h (by simp only [sortKeys, reduceCtorEq, not_false_eq_true])
  | list xs => exact absurd h (by simp only [sortKeys, reduceCtorEq, not_false_eq_true])
  | dict kvs => exact absurd h (by simp only [sortKeys, reduceCtorEq, not_false_eq_true])

theorem same_number (v w : PyVal) (hv : (∃ n, v = .int n) ∨ ∃ q, v = .float q)
    (h : Same v w) : v = w := by
  unfold Same at h
  have hsort : sortKeys v = v := by
    rcases hv with ⟨n, rfl⟩ | ⟨q, rfl⟩
    · rfl
    · rfl
  rw [hsort] at h
  cases w with
  | list xs =>
      rw [sortKeys] at h
      rcases hv with ⟨n, rfl⟩ | ⟨q, rfl⟩
      · exact absurd h (by simp only [reduceCtorEq, not_false_eq_true])
      · exact absurd h (by simp only [reduceCtorEq, not_false_eq_true])
  | dict kvs =>
      rw [sortKeys] at h
      rcases hv with ⟨n, rfl⟩ | ⟨q, rfl⟩
      · exact absurd h (by simp only [reduceCtorEq, not_false_eq_true])
      · exact absurd h (by simp only [reduceCtorEq, not_false_eq_true])
  | none => exact h
  | bool b => exact h
  | int n => exact h
  | float q => exact h
  | str s => exact h

theorem taskOrEmpty_dict (m d : Msg) (h : get m (lit "task") = .dict d) (hd : d ≠ []) :
    taskOrEmpty m = .dict d := by
  unfold taskOrEmpty
  rw [h, if_pos]
  simp only [PyVal.truthy, ne_eq, List.length_eq_zero_iff, hd, not_false_eq_true, decide_true]

theorem taskOrEmpty_wire (m : Msg) (hm : Wire (.dict m)) : Wire (taskOrEmpty m) := by
  unfold taskOrEmpty
  by_cases ht : (get m (lit "task")).truthy = true
  · rw [if_pos ht]
    exact hm.get _
  · rw [if_neg ht]
    exact ⟨List.nodup_nil, trivial⟩

theorem getD_wire (m : Msg) (k : PyStr) (v : PyVal) (hm : Wire (.dict m)) (hv : Wire v) :
    Wire (getD m k v) := by
  unfold PyVal.getD
  cases hk : lookup k m with
  | none => exact hv
  | some w =>
      simp only [Wire] at hm
      exact hm.2.lookup hk

theorem canonicalFields_ok (m f : Msg) (h : canonicalFields m = .ok f) :
    ∃ task, taskOrEmpty m = .dict task ∧
      f = [(lit "msg_id", getD m (lit "msg_id") (.str [])),
        (lit "task_id", getD task (lit "task_id") (.str [])),
        (lit "status", getD task (lit "status") (.str [])),
        (lit "leased_by", holderOrEmpty task),
        (lit "version", getD task (lit "version") (.int 0))] := by
  unfold canonicalFields at h
  split at h
  · rename_i task heq
    rw [Except.ok.injEq] at h
    exact ⟨task, heq, h.symm⟩
  · exact absurd h (by simp only [reduceCtorEq, not_false_eq_true])

theorem canonicalFields_of_task (m task : Msg) (h : taskOrEmpty m = .dict task) :
    ∃ f, canonicalFields m = .ok f := by
  unfold canonicalFields
  rw [h]
  exact ⟨_, rfl⟩

theorem canonicalFields_nodup (m f : Msg) (h : canonicalFields m = .ok f) :
    (f.map Prod.fst).Nodup := by
  rcases canonicalFields_ok m f h with ⟨task, _, hf⟩
  rw [hf]
  simp only [List.map_cons, List.map_nil]
  decide

/-- The signed values of a message are wire values. -/
def WireClaim (m : Msg) : Prop := ∀ f, canonicalFields m = .ok f → Wire (.dict f)

theorem wireClaim_of_wire (m : Msg) (hm : Wire (.dict m)) : WireClaim m := by
  intro f h
  have hnd := canonicalFields_nodup m f h
  have htask := taskOrEmpty_wire m hm
  rcases canonicalFields_ok m f h with ⟨task, heq, hf⟩
  rw [heq] at htask
  have hholder : Wire (holderOrEmpty task) := by
    unfold holderOrEmpty
    by_cases hl : (get task (lit "leased_by")).truthy = true
    · rw [if_pos hl]
      exact htask.get _
    · rw [if_neg hl]
      rfl
  rw [hf] at hnd ⊢
  exact ⟨hnd, by decide, getD_wire m _ _ hm rfl, by decide, getD_wire task _ _ htask rfl,
    by decide, getD_wire task _ _ htask rfl, by decide, hholder,
    by decide, getD_wire task _ _ htask trivial, trivial⟩

/-- The sorted projections of two messages are equal exactly when the messages
    make the same claim. -/
theorem sortKeys_fields_eq_iff (m m' f f' : Msg) (hf : canonicalFields m = .ok f)
    (hf' : canonicalFields m' = .ok f') :
    sortKeys (.dict f) = sortKeys (.dict f') ↔ SameClaim m m' := by
  have hnd := canonicalFields_nodup m f hf
  rcases canonicalFields_ok m f hf with ⟨task, htask, hfeq⟩
  rcases canonicalFields_ok m' f' hf' with ⟨task', htask', hfeq'⟩
  constructor
  · intro h
    have hkey := lookup_of_sortKeys_eq f f' hnd h
    rw [hfeq, hfeq'] at hkey
    exact ⟨task, task', htask, htask', Option.some.inj (hkey (lit "msg_id")),
      Option.some.inj (hkey (lit "task_id")), Option.some.inj (hkey (lit "status")),
      Option.some.inj (hkey (lit "leased_by")), Option.some.inj (hkey (lit "version"))⟩
  · rintro ⟨t, t', ht, ht', hid, htid, hstatus, hholder, hversion⟩
    rw [htask, PyVal.dict.injEq] at ht
    rw [htask', PyVal.dict.injEq] at ht'
    rw [← ht, ← ht'] at htid hstatus hholder hversion
    unfold Same at hid htid hstatus hholder hversion
    simp only [hfeq, hfeq', sortKeys, sortKeysItems, hid, htid, hstatus, hholder, hversion]

theorem encode_inj (s s' : PyStr) (b : Bytes) (h : encode s = .ok b) (h' : encode s' = .ok b) :
    s = s' := by
  have hd := decode_encode s b h
  rw [decode_encode s' b h', Except.ok.injEq] at hd
  exact hd.symm

/-- `_canonical` succeeds on every message that has a task to read. -/
theorem canonical_ok (P : Primitives) (hP : P.Lawful) (m f : Msg)
    (hf : canonicalFields m = .ok f) :
    ∃ b, canonical P m = .ok b ∧ encode (P.dumpsSorted (.dict f)) = .ok b := by
  have hascii := hP.dumps_ascii (sortKeys (.dict f))
  have henc : encode (P.dumpsSorted (.dict f))
      = .ok (toText (P.dumpsSorted (.dict f))).toByteArray.data.toList := by
    rw [encode, if_neg (by rw [Primitives.dumpsSorted, hascii]; exact Bool.false_ne_true)]
  refine ⟨_, ?_, henc⟩
  rw [canonical, hf]
  exact henc

theorem canonicalFields_of_canonical (P : Primitives) (m : Msg) (b : Bytes)
    (h : canonical P m = .ok b) : ∃ f, canonicalFields m = .ok f := by
  cases hf : canonicalFields m with
  | ok f => exact ⟨f, rfl⟩
  | error e =>
      rw [canonical, hf] at h
      exact absurd h (by simp only [reduceCtorEq, not_false_eq_true])

/-- Two messages have the same bytes to sign exactly when they make the same
    claim. -/
theorem canonical_eq_iff (P : Primitives) (hP : P.Lawful) (m m' : Msg) (b : Bytes)
    (hm : WireClaim m) (hm' : WireClaim m') (hb : canonical P m = .ok b) :
    canonical P m' = .ok b ↔ SameClaim m m' := by
  rcases canonicalFields_of_canonical P m b hb with ⟨f, hf⟩
  rcases canonical_ok P hP m f hf with ⟨b₀, hb₀, henc⟩
  rw [hb, Except.ok.injEq] at hb₀
  rw [← hb₀] at henc
  constructor
  · intro h
    rcases canonicalFields_of_canonical P m' b h with ⟨f', hf'⟩
    rcases canonical_ok P hP m' f' hf' with ⟨b₁, hb₁, henc'⟩
    rw [h, Except.ok.injEq] at hb₁
    rw [← hb₁] at henc'
    -- Equal bytes are equal texts, and equal texts are equal sorted values.
    have htext := encode_inj _ _ b henc henc'
    have hsorted := P.dumps_inj hP _ _
      (Wire.sortKeys _ (hm f hf)) (Wire.sortKeys _ (hm' f' hf')) htext
    exact (sortKeys_fields_eq_iff m m' f f' hf hf').mp hsorted
  · intro hsame
    have hsame' := hsame
    rcases hsame' with ⟨_, task', _, htask', _⟩
    rcases canonicalFields_of_task m' task' htask' with ⟨f', hf'⟩
    have hsorted := (sortKeys_fields_eq_iff m m' f f' hf hf').mpr hsame
    rcases canonical_ok P hP m' f' hf' with ⟨b₁, hb₁, henc'⟩
    rw [Primitives.dumpsSorted, ← hsorted, ← Primitives.dumpsSorted, henc,
      Except.ok.injEq] at henc'
    rw [hb₁, henc']

/-! ## Acceptance -/

theorem verify_unsigned (P : Primitives) (m : Msg)
    (h : (get m (lit "signature")).truthy = false ∨ (get m (lit "signing_key")).truthy = false) :
    verify P m = true := by
  unfold verify
  rcases h with h | h
  · rw [if_pos (by rw [h]; rfl)]
  · rw [if_pos (by rw [h]; exact Bool.or_true _)]

theorem str_truthy (s : PyStr) (h : s ≠ []) : (PyVal.str s).truthy = true := by
  simp only [PyVal.truthy, ne_eq, h, not_false_eq_true, decide_true]

theorem hex_nonempty (b : Bytes) (h : b ≠ []) : hex b ≠ [] := by
  intro hc
  have hb := fromhex_hex b
  rw [hc] at hb
  simp only [fromhex, Except.ok.injEq] at hb
  exact h hb.symm

/-- The signature check of a message that carries a signature by `k` over `d`
    passes exactly when the message's own bytes are `d`. -/
theorem verify_signature_iff (P : Primitives) (hP : P.Lawful) (k d : Bytes) (m : Msg)
    (hsig : get m (lit "signature") = .str (P.b64encode (P.edSign k d)))
    (hkey : get m (lit "signing_key") = .str (Signer.publicKeyHex P k)) :
    verify P m = true ↔ canonical P m = .ok d := by
  have htsig : (get m (lit "signature")).truthy = true := by
    rw [hsig]
    exact str_truthy _ (hP.b64_nonempty _ (hP.edSign_nonempty k d))
  have htkey : (get m (lit "signing_key")).truthy = true := by
    rw [hkey]
    exact str_truthy _ (hex_nonempty _ (hP.edPublic_nonempty k))
  have hpub : fromhexVal (.str (Signer.publicKeyHex P k)) = .ok (P.edPublic k) :=
    fromhex_hex _
  unfold verify
  rw [if_neg (by rw [htsig, htkey]; decide), hsig, hkey]
  unfold checkSignature
  rw [hpub, hP.b64]
  cases hc : canonical P m with
  | error e => simp only [reduceCtorEq, Bool.false_eq_true]
  | ok d' =>
      simp only [Except.ok.injEq]
      -- A signature verifies for the bytes it was made for and no others.
      have hlaw := hP.edVerify_edSign k d d'
      cases hv : P.edVerify (P.edPublic k) (P.edSign k d) d' with
      | error e =>
          rw [hv] at hlaw
          simp only [reduceCtorEq, false_iff] at hlaw
          simp only [Bool.false_eq_true, hlaw]
      | ok u => exact ⟨fun _ => hlaw.mp hv, fun _ => rfl⟩

/-- The bytes to sign depend on the message id and the task only: neither the
    signature fields nor the hop count that relays rewrite is among them. -/
theorem canonical_assign (P : Primitives) (k : PyStr) (v : PyVal) (m : Msg)
    (hid : k ≠ lit "msg_id") (htask : k ≠ lit "task") :
    canonical P (assign k v m) = canonical P m := by
  have ht : lookup (lit "task") (assign k v m) = lookup (lit "task") m :=
    lookup_assign_of_ne _ _ _ _ (Ne.symm htask)
  have hi : lookup (lit "msg_id") (assign k v m) = lookup (lit "msg_id") m :=
    lookup_assign_of_ne _ _ _ _ (Ne.symm hid)
  unfold canonical canonicalFields taskOrEmpty PyVal.get PyVal.getD
  rw [ht, hi]

theorem canonical_signed (P : Primitives) (m : Msg) (sig key : PyVal) :
    canonical P (assign (lit "signing_key") key (assign (lit "signature") sig m))
      = canonical P m := by
  rw [canonical_assign P _ _ _ (by decide) (by decide),
    canonical_assign P _ _ _ (by decide) (by decide)]

/-- A message as `sign` returns it, with the key and the bytes it was made
    with. -/
theorem sign_ok (P : Primitives) (s : Signer) (k : Bytes) (m signed : Msg)
    (hk : s.privateKey = some k) (h : s.sign P m = .ok signed) :
    ∃ d, canonical P signed = .ok d ∧
      get signed (lit "signature") = .str (P.b64encode (P.edSign k d)) ∧
      get signed (lit "signing_key") = .str (Signer.publicKeyHex P k) := by
  unfold Signer.sign at h
  rw [hk] at h
  cases hc : canonical P m with
  | error e =>
      simp only [hc, reduceCtorEq] at h
  | ok d =>
      simp only [hc, Except.ok.injEq] at h
      rw [← h]
      refine ⟨d, by rw [canonical_signed, hc], ?_, ?_⟩
      · unfold PyVal.get
        rw [lookup_assign_of_ne _ _ _ _ (by decide), lookup_assign_self]
        rfl
      · unfold PyVal.get
        rw [lookup_assign_self]
        rfl

/-- Signing succeeds on every message that has a task to read. -/
theorem sign_exists (P : Primitives) (hP : P.Lawful) (s : Signer) (m f : Msg)
    (hf : canonicalFields m = .ok f) : ∃ signed, s.sign P m = .ok signed := by
  unfold Signer.sign
  cases s.privateKey with
  | none => exact ⟨m, rfl⟩
  | some k =>
      rcases canonical_ok P hP m f hf with ⟨d, hd, _⟩
      simp only [hd]
      exact ⟨_, rfl⟩

end WhisperNet
