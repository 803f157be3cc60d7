import WhisperNet.Crypto.Primitives
import WhisperNet.Crypto.Shamir

/-!
# Payload Encryption

The two ciphers of `whisper/crypto.py`. `PayloadCipher` encrypts a payload to
one X25519 key. `ThresholdCipher` encrypts it under a fresh AES key, splits
that key into shares, and encrypts each share to one key of a list.

Randomness is an argument: the ephemeral keys, nonces and coefficients a call
draws. An encryption can fail, on a key that is not the hexadecimal text of 32
bytes or a payload that has no UTF-8 encoding, and the callers catch that.

## Main definitions

* `payloadMarker`, `thresholdMarker`: The prefixes of an encrypted payload.
* `PayloadCipher.encrypt`, `PayloadCipher.decrypt`: One recipient.
* `ThresholdCipher.encrypt`: One payload, `n` shares.
* `ThresholdCipher.decryptOwnShare`: The share meant for this node.
* `ThresholdCipher.reconstructAndDecrypt`: The payload from enough shares.
-/

namespace WhisperNet

/-- Twelve random bytes. -/
structure Nonce where
  bytes : Bytes
  length_eq : bytes.length = 12

/-- `raw.startswith(prefix)`. -/
def startsWith (s marker : PyStr) : Bool := marker.isPrefixOf s

def payloadMarker : PyStr := lit "ENC:"

def thresholdMarker : PyStr := lit "THRESHOLD:"

/-- A raw public key has 32 bytes. The advertised text can be any value. -/
def publicKeyOfHex (keyHex : PyVal) : Except PyErr Bytes :=
  match fromhexVal keyHex with
  | .error e => .error e
  | .ok pub => if pub.length = 32 then .ok pub else .error .valueError

/-- The node's X25519 key, absent when no key file is configured. Both ciphers
    are keyed with it. -/
structure PayloadCipher where
  privateKey : Option Bytes
  deriving DecidableEq

namespace PayloadCipher

def enabled (c : PayloadCipher) : Bool := c.privateKey.isSome

/-- `x25519_pubkey_hex`. -/
def pubkeyHex (P : Primitives) (c : PayloadCipher) : Option PyStr :=
  c.privateKey.map (fun k => hex (P.xPublic k))

/-- What one encryption draws: an ephemeral private key and a nonce. -/
structure Rand where
  eph : Bytes
  nonce : Nonce

def encrypt (P : Primitives) (rand : Rand) (targetPubkeyHex : PyVal) (plaintext : PyStr) :
    Except PyErr PyStr := do
  let target ← publicKeyOfHex targetPubkeyHex
  let shared ← P.exchange rand.eph target
  let data ← encode plaintext
  let ct ← P.aesEncrypt (P.hkdf (lit "whisper-payload") shared) rand.nonce.bytes data
  pure (payloadMarker ++ P.b64encode (P.xPublic rand.eph ++ rand.nonce.bytes ++ ct))

/-- Raises if the payload is not marked or does not open. -/
def decrypt (P : Primitives) (c : PayloadCipher) (payload : PyStr) : Except PyErr PyStr := do
  if !startsWith payload payloadMarker then throw .valueError
  let raw ← P.b64decode (.str (payload.drop payloadMarker.length))
  match c.privateKey with
  | none => throw .attributeError
  | some priv =>
    let shared ← P.exchange priv (raw.take 32)
    let data ← P.aesDecrypt (P.hkdf (lit "whisper-payload") shared)
      ((raw.drop 32).take 12) (raw.drop 44)
    decode data

end PayloadCipher

namespace ThresholdCipher

/-- What one threshold encryption draws: the AES key, its nonce, the
    coefficients of the split, and an ephemeral key and a nonce for every
    share. -/
structure Rand where
  aesKey : Bytes
  aesKey_length : aesKey.length = 32
  nonce : Nonce
  coeffs : Nat → Nat → UInt8
  share : Nat → PayloadCipher.Rand

/-- The entry of one share. -/
def shareEntry (P : Primitives) (rand : PayloadCipher.Rand) (share : Share)
    (pubkeyHex : PyVal) : Except PyErr PyVal := do
  let target ← publicKeyOfHex pubkeyHex
  let shared ← P.exchange rand.eph target
  let ct ← P.aesEncrypt (P.hkdf (lit "whisper-tshare") shared) rand.nonce.bytes share.2
  pure (.dict
    [(lit "x", .int share.1),
     (lit "node_pubkey", pubkeyHex),
     (lit "eph_pub", .str (P.b64encode (P.xPublic rand.eph))),
     (lit "enc_share", .str (P.b64encode (rand.nonce.bytes ++ ct)))])

/-- `ThresholdCipher.encrypt`: shares go to the keys in order. -/
def encrypt (P : Primitives) (rand : Rand) (targetPubkeys : List PyVal) (plaintext : PyStr)
    (t : Nat) : Except PyErr PyStr := do
  let n := targetPubkeys.length
  let data ← encode plaintext
  let ct ← P.aesEncrypt rand.aesKey rand.nonce.bytes data
  let rawShares := shamirSplit rand.aesKey n t rand.coeffs
  let entries ← (rawShares.zip targetPubkeys).zipIdx.mapM
    (fun e => shareEntry P (rand.share e.2) e.1.1 e.1.2)
  let blob := PyVal.dict
    [(lit "t", .int t), (lit "n", .int n),
     (lit "ciphertext", .str (P.b64encode (rand.nonce.bytes ++ ct))),
     (lit "shares", .list entries)]
  pure (thresholdMarker ++ P.dumps blob)

/-- The body of the `try` block of `decrypt_own_share`. -/
def openEntry (P : Primitives) (priv : Bytes) (entry : Msg) : Except PyErr (PyVal × Bytes) :=
  match lookup (lit "eph_pub") entry, lookup (lit "enc_share") entry, lookup (lit "x") entry with
  | some ephPub, some encShare, some x => do
    let eph ← P.b64decode ephPub
    let shared ← P.exchange priv eph
    let raw ← P.b64decode encShare
    let share ← P.aesDecrypt (P.hkdf (lit "whisper-tshare") shared) (raw.take 12) (raw.drop 12)
    pure (x, share)
  | _, _, _ => .error .keyError

/-- The first entry addressed to the key; an entry without the field raises. -/
def findEntry (pubkeyHex : PyStr) : List PyVal → Except PyErr (Option Msg)
  | [] => .ok none
  | .dict entry :: rest =>
    match lookup (lit "node_pubkey") entry with
    | none => .error .keyError
    | some k => if pyEq k (.str pubkeyHex) then .ok (some entry) else findEntry pubkeyHex rest
  | _ :: _ => .error .typeError

/-- `decrypt_own_share`: the coordinate and the bytes of this node's share, or
    nothing if it has none that opens. -/
def decryptOwnShare (P : Primitives) (c : PayloadCipher) (payload : PyStr) :
    Except PyErr (Option (PyVal × Bytes)) :=
  match c.privateKey with
  | none => .ok none
  | some priv =>
    match P.loads (payload.drop thresholdMarker.length) with
    | .error _ => .ok none
    | .ok (.dict blob) =>
      match (lookup (lit "shares") blob).getD (.list []) with
      | .list entries =>
        match findEntry (hex (P.xPublic priv)) entries with
        | .error e => .error e
        | .ok none => .ok none
        | .ok (some entry) =>
          match openEntry P priv entry with
          | .ok s => .ok (some s)
          | .error _ => .ok none
      | .dict [] | .str [] => .ok none
      | _ => .error .typeError
    | .ok _ => .error .attributeError

/-- `reconstruct_and_decrypt`. -/
def reconstructAndDecrypt (P : Primitives) (payload : PyStr) (shares : List Share) :
    Except PyErr PyStr := do
  let blob ← P.loads (payload.drop thresholdMarker.length)
  let aesKey ← shamirReconstruct shares
  match blob with
  | .dict items =>
    match lookup (lit "ciphertext") items with
    | none => throw .keyError
    | some ct =>
      let raw ← P.b64decode ct
      let data ← P.aesDecrypt aesKey (raw.take 12) (raw.drop 12)
      decode data
  | _ => throw .typeError

end ThresholdCipher

end WhisperNet
