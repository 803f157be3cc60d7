import WhisperNet.Crypto.Reference
import WhisperNet.Crypto.Signer
import WhisperNet.Ledger.Task

/-!
# Tamper Evidence

What a receiver learns from an accepted signature. The signature of a
`ledger_update` covers the claim a message makes and nothing else of the
record it carries, so a copy of a signed message is accepted exactly when it
makes the same claim. A relay, which rewrites the hop count only, never
invalidates a signature. A copy with another payload, result, shard, lease
expiry or submitter is not told apart from the original.

## Main definitions

* `SameUpdate`: Two messages carry the same record, in every field.

## Theorems

* `verify_copy_iff`: A copy is accepted exactly when it makes the claim that
  was signed, and relaying keeps it accepted.
* `altered_record_accepted`: A copy with another record that is accepted.
-/

namespace WhisperNet

open PyVal (get)

/-- The same message id and the same task record, in every field. -/
def SameUpdate (m m' : Msg) : Prop :=
  get m (lit "msg_id") = get m' (lit "msg_id") ∧
    ∃ d d', get m (lit "task") = .dict d ∧ get m' (lit "task") = .dict d' ∧
      Task.fromDict d = Task.fromDict d'

/-- A copy of a signed message, with the signature and the key it was signed
    with, is accepted exactly when it makes the claim that was signed. Whatever
    a relay writes into the hop count of an accepted copy, it stays accepted. -/
theorem verify_copy_iff (P : Primitives) (hP : P.Lawful) (s : Signer) (k : Bytes)
    (m signed copy : Msg) (hk : s.privateKey = some k) (hsign : s.sign P m = .ok signed)
    (hw : Wire (.dict signed)) (hw' : Wire (.dict copy))
    (hsig : get copy (lit "signature") = get signed (lit "signature"))
    (hkey : get copy (lit "signing_key") = get signed (lit "signing_key")) :
    (verify P copy = true ↔ SameClaim signed copy) ∧
      ∀ h, verify P (assign (lit "hops") h copy) = verify P copy := by
  rcases sign_ok P s k m signed hk hsign with ⟨d, hd, hs, hpk⟩
  have hsigned := verify_signature_iff P hP k d
  constructor
  · rw [hsigned copy (by rw [hsig, hs]) (by rw [hkey, hpk])]
    exact canonical_eq_iff P hP signed copy d (wireClaim_of_wire signed hw)
      (wireClaim_of_wire copy hw') hd
  · intro h
    have hget : ∀ key, key ≠ lit "hops" →
        get (assign (lit "hops") h copy) key = get copy key := by
      intro key hne
      unfold PyVal.get
      rw [lookup_assign_of_ne _ _ _ _ hne]
    rw [Bool.eq_iff_iff, hsigned copy (by rw [hsig, hs]) (by rw [hkey, hpk]),
      hsigned _ (by rw [hget _ (by decide), hsig, hs]) (by rw [hget _ (by decide), hkey, hpk]),
      canonical_assign P _ _ _ (by decide) (by decide)]

namespace Tamper

/-- A completed record with everything the signature leaves out as given. -/
def record (payload result submitter : PyStr) (shard : Int) (expires : ℚ) : Task where
  taskId := .str (lit "t")
  payload := .str payload
  shardId := .int shard
  status := .completed
  leasedBy := .str (lit "a")
  leaseExpires := .float expires
  result := .str result
  createdAt := .float 0
  version := .int 3
  submitterKey := .str submitter

def update (task : Task) : Msg :=
  [(lit "type", .str (lit "ledger_update")), (lit "msg_id", .str (lit "m")),
   (lit "from", .str (lit "a")), (lit "hops", .int 8), (lit "task", .dict task.toDict)]

def original : Msg := update (record (lit "p") (lit "r") (lit "s") 1 30)

def altered : Msg := update (record (lit "q") (lit "x") (lit "y") 2 0)

def key : Signer := ⟨some [7]⟩

/-- A message with the fields `sign` adds. -/
noncomputable def signedWith (d : Bytes) (m : Msg) : Msg :=
  assign (lit "signing_key") (.str (Signer.publicKeyHex reference [7]))
    (assign (lit "signature") (.str (reference.b64encode (reference.edSign [7] d))) m)

theorem get_signature (d : Bytes) (m : Msg) :
    get (signedWith d m) (lit "signature") =
      .str (reference.b64encode (reference.edSign [7] d)) := by
  unfold PyVal.get signedWith
  rw [lookup_assign_of_ne _ _ _ _ (by decide), lookup_assign_self]
  rfl

theorem get_signingKey (d : Bytes) (m : Msg) :
    get (signedWith d m) (lit "signing_key") = .str (Signer.publicKeyHex reference [7]) := by
  unfold PyVal.get signedWith
  rw [lookup_assign_self]
  rfl

/-- What is signed of an update has nothing of the fields that are left out. -/
theorem canonicalFields_update (payload result submitter : PyStr) (shard : Int) (expires : ℚ) :
    canonicalFields (update (record payload result submitter shard expires)) = .ok
      [(lit "msg_id", .str (lit "m")), (lit "task_id", .str (lit "t")),
       (lit "status", .str (lit "completed")), (lit "leased_by", .str (lit "a")),
       (lit "version", .int 3)] :=
  rfl

theorem sign_original : ∃ d, canonical reference original = .ok d ∧
    key.sign reference original = .ok (signedWith d original) := by
  rcases canonical_ok reference reference_lawful original _ rfl with ⟨d, hd, _⟩
  refine ⟨d, hd, ?_⟩
  unfold Signer.sign key
  simp only [hd]
  rfl

theorem wire_signedWith (d : Bytes) : Wire (.dict (signedWith d original)) := by
  have hnd : ((signedWith d original).map Prod.fst).Nodup := by
    change ((assign _ _ (assign _ _ original)).map Prod.fst).Nodup
    exact nodup_keys_assign _ _ _ (nodup_keys_assign _ _ _ (by decide))
  have hsig : hasPair (reference.b64encode (reference.edSign [7] d)) = false :=
    hasPair_of_ascii _ (Reference.b64_ascii _)
  have htask : Wire (.dict (record (lit "p") (lit "r") (lit "s") 1 30).toDict) := by
    refine ⟨by decide, ?_⟩
    simp only [Task.toDict, WireItems, record, Wire, Status.toVal, completedVal, and_true]
    decide
  exact ⟨hnd, rfl, rfl, rfl, rfl, rfl, rfl, rfl, trivial, rfl, htask, rfl, hsig, rfl, rfl,
    trivial⟩

/-- A relayed copy of a signed update: what it says is what was signed. -/
theorem verify_copy_relayed : ∃ signed copy,
    key.sign reference original = .ok signed ∧
    copy = assign (lit "hops") (.int 7) signed ∧
    ((verify reference copy = true ↔ SameClaim signed copy) ∧
      ∀ h, verify reference (assign (lit "hops") h copy) = verify reference copy) := by
  rcases sign_original with ⟨d, _, hsign⟩
  have hw := wire_signedWith d
  refine ⟨signedWith d original, _, hsign, rfl, ?_⟩
  exact verify_copy_iff reference reference_lawful key [7] original _ _ rfl hsign hw
    (wire_assign _ _ _ hw (by decide) trivial) rfl rfl

/-- A copy with another payload, result, shard, lease expiry and submitter
    under the same signature is accepted. -/
theorem altered_record_accepted : ∃ signed copy,
    key.sign reference original = .ok signed ∧
    get copy (lit "signature") = get signed (lit "signature") ∧
    get copy (lit "signing_key") = get signed (lit "signing_key") ∧
    verify reference copy = true ∧ ¬ SameUpdate signed copy := by
  rcases sign_original with ⟨d, hd, hsign⟩
  refine ⟨signedWith d original, signedWith d altered, hsign, ?_, ?_, ?_, ?_⟩
  · rw [get_signature, get_signature]
  · rw [get_signingKey, get_signingKey]
  · -- The signature covers the same fields of both.
    have hfields : canonicalFields altered = canonicalFields original := by
      rw [altered, original, canonicalFields_update, canonicalFields_update]
    have hcopy : canonical reference (signedWith d altered) = .ok d := by
      rw [signedWith, canonical_signed, canonical, hfields]
      exact hd
    exact (verify_signature_iff reference reference_lawful [7] d _ (get_signature d _)
      (get_signingKey d _)).mpr hcopy
  · rintro ⟨_, t, t', ht, ht', heq⟩
    have htask : (record (lit "p") (lit "r") (lit "s") 1 30).toDict = t :=
      PyVal.dict.inj ht
    have htask' : (record (lit "q") (lit "x") (lit "y") 2 0).toDict = t' :=
      PyVal.dict.inj ht'
    rw [← htask, ← htask', Task.fromDict_toDict, Task.fromDict_toDict, Except.ok.injEq] at heq
    exact absurd heq (by decide)

end Tamper

end WhisperNet
