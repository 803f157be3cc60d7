import WhisperNet.Python.Text

/-!
# Cryptographic Primitives

What the program takes from packages outside its repository: the JSON and
base64 codecs, Ed25519, X25519, HKDF and AES-GCM. They are one structure of
functions, a parameter of everything that signs or encrypts, and `Lawful` names
the documented behaviour the program relies on. Nothing is assumed of a
particular algorithm beyond these laws.

The JSON law is stated for wire values only. A string that holds a high
surrogate followed by a low one is written with the same escapes as the
character the pair stands for, so it does not read back; no decoder produces
one, and `Wire` leaves it out, together with duplicate keys.

`hex` and `bytes.fromhex` are part of the language, and are defined here.

## Main definitions

* `Primitives`: The functions of the packages.
* `fromhex`: `bytes.fromhex`.
* `Wire`: A value a JSON decoder can produce.
* `sortKeys`: A value with the items of every dictionary sorted.
* `Primitives.dumpsSorted`: `json.dumps(v, sort_keys=True)`.
* `Primitives.Lawful`: The round trips the program relies on.
* `Primitives.Authenticated`: Decryption with a wrong key fails.

## Theorems

* `fromhex_hex`: Hexadecimal text reads back.
* `hex_ascii`, `fromhex_ascii`: Hexadecimal text is ASCII.
* `wire_assign`: Assignment keeps a dictionary a wire value.
* `Wire.get`: The values of a wire dictionary are wire values.
* `Wire.sortKeys`: Sorting the keys of a wire value gives a wire value.
* `lookup_of_sortKeys_eq`: Dictionaries equal once sorted agree at every key.
* `dumps_inj`: Wire values with equal JSON text are equal.
-/

namespace WhisperNet

/-- The items of a message or of another JSON object. -/
abbrev Msg := List (PyStr × PyVal)

/-- The functions the program calls in the packages it imports. -/
structure Primitives where
  /-- `json.dumps(v)` -/
  dumps : PyVal → PyStr
  /-- `json.loads(s)` -/
  loads : PyStr → Except PyErr PyVal
  /-- `base64.b64encode(b).decode()` -/
  b64encode : Bytes → PyStr
  /-- `base64.b64decode(v)` -/
  b64decode : PyVal → Except PyErr Bytes
  /-- The raw Ed25519 public key of a private key. -/
  edPublic : Bytes → Bytes
  /-- `Ed25519PrivateKey.sign` -/
  edSign : Bytes → Bytes → Bytes
  /-- `Ed25519PublicKey.from_public_bytes(pub).verify(sig, data)`; an error is
      either of the two raising. -/
  edVerify : Bytes → Bytes → Bytes → Except PyErr Unit
  /-- The raw X25519 public key of a private key. -/
  xPublic : Bytes → Bytes
  /-- `priv.exchange(X25519PublicKey.from_public_bytes(pub))` -/
  exchange : Bytes → Bytes → Except PyErr Bytes
  /-- `HKDF(SHA256(), 32, None, info).derive(key)` -/
  hkdf : PyStr → Bytes → Bytes
  /-- `AESGCM(key).encrypt(nonce, data, None)` -/
  aesEncrypt : Bytes → Bytes → Bytes → Except PyErr Bytes
  /-- `AESGCM(key).decrypt(nonce, data, None)` -/
  aesDecrypt : Bytes → Bytes → Bytes → Except PyErr Bytes

/-! ## Hexadecimal text -/

/-- The value of a hexadecimal digit. -/
def hexDigit (c : CodePoint) : Option Nat :=
  if 48 ≤ c.val ∧ c.val ≤ 57 then some (c.val - 48)
  else if 97 ≤ c.val ∧ c.val ≤ 102 then some (c.val - 87)
  else if 65 ≤ c.val ∧ c.val ≤ 70 then some (c.val - 55)
  else none

/-- The whitespace `bytes.fromhex` skips between two bytes. -/
def isBlank (c : CodePoint) : Bool := c.val = 32 ∨ (9 ≤ c.val ∧ c.val ≤ 13)

/-- `bytes.fromhex(s)`. -/
def fromhex : PyStr → Except PyErr Bytes
  | [] => .ok []
  | [c] => if isBlank c then .ok [] else .error .valueError
  | c :: d :: s =>
    if isBlank c then fromhex (d :: s)
    else match hexDigit c, hexDigit d, fromhex s with
      | some m, some n, .ok b => .ok (UInt8.ofNat (16 * m + n) :: b)
      | _, _, _ => .error .valueError

/-- `bytes.fromhex` on an arbitrary value. -/
def fromhexVal : PyVal → Except PyErr Bytes
  | .str s => fromhex s
  | _ => .error .typeError

theorem hexDigit_ascii {c : CodePoint} {n : Nat} (h : hexDigit c = some n) :
    isBlank c = false ∧ isSurrogate c = false := by
  have hrange : 48 ≤ c.val ∧ c.val ≤ 102 := by
    unfold hexDigit at h
    split_ifs at h
    · omega
    · omega
    · omega
  simp only [isBlank, isSurrogate, decide_eq_false_iff_not]
  omega

/-- Hexadecimal text with blanks is ASCII. -/
theorem fromhex_ascii (s : PyStr) (b : Bytes) (h : fromhex s = .ok b) :
    s.any isSurrogate = false := by
  have hblank : ∀ c : CodePoint, isBlank c = true → isSurrogate c = false := by
    intro c hc
    simp only [isBlank, decide_eq_true_eq] at hc
    simp only [isSurrogate, decide_eq_false_iff_not]
    omega
  induction s using fromhex.induct generalizing b with
  | case1 => rfl
  | case2 c hc => rw [List.any_cons, hblank c hc, List.any_nil, Bool.or_false]
  | case3 c hc =>
      rw [fromhex, if_neg hc] at h
      simp only [reduceCtorEq] at h
  | case4 c d s hc ih =>
      rw [fromhex, if_pos hc] at h
      rw [List.any_cons, hblank c hc, ih b h, Bool.or_false]
  | case5 c d s hc m n b' hb hm hn ih =>
      rw [List.any_cons, List.any_cons, (hexDigit_ascii hm).2, (hexDigit_ascii hn).2, ih b' hb]
      rfl
  | case6 c d s hc hfail ih =>
      rw [fromhex, if_neg hc] at h
      split at h
      · rename_i m n b' hm hn hb
        exact (hfail m n b' hm hn hb).elim
      · simp only [reduceCtorEq] at h

/-- The two hexadecimal digits of a byte. -/
def hexByte (c : UInt8) : PyStr :=
  lit (String.ofList [Nat.digitChar (c.toNat / 16), Nat.digitChar (c.toNat % 16)])

theorem fromhex_hexByte : ∀ c : Fin 256, (hexByte (UInt8.ofNat c.val)).map hexDigit
    = [some (c.val / 16), some (c.val % 16)] := by
  decide +kernel

theorem fromhex_hex (b : Bytes) : fromhex (hex b) = .ok b := by
  have hflat : ∀ b : Bytes, hex b = b.flatMap hexByte := fun _ => rfl
  induction b with
  | nil => rfl
  | cons c b ih =>
      have hdigits := fromhex_hexByte ⟨c.toNat, c.toNat_lt⟩
      rw [UInt8.ofNat_toNat] at hdigits
      -- A byte is written with exactly two digits.
      rcases hhex : hexByte c with _ | ⟨d, _ | ⟨e, _ | ⟨f, s⟩⟩⟩
      · rw [hhex] at hdigits
        exact absurd hdigits (by simp only [List.map_nil, reduceCtorEq, not_false_eq_true])
      · rw [hhex] at hdigits
        exact absurd (congrArg List.length hdigits) (by
          simp only [List.map_cons, List.map_nil, List.length_cons, List.length_nil]
          omega)
      · rw [hhex] at hdigits
        simp only [List.map_cons, List.map_nil, List.cons.injEq, and_true] at hdigits
        rw [hflat, List.flatMap_cons, hhex]
        rw [List.cons_append, List.cons_append, List.nil_append, fromhex,
          if_neg (by rw [(hexDigit_ascii hdigits.1).1]; exact Bool.false_ne_true), hdigits.1,
          hdigits.2, ← hflat, ih]
        have hval : 16 * (c.toNat / 16) + c.toNat % 16 = c.toNat := Nat.div_add_mod _ _
        simp only [hval, UInt8.ofNat_toNat]
      · rw [hhex] at hdigits
        exact absurd (congrArg List.length hdigits) (by
          simp only [List.map_cons, List.length_cons, List.length_nil]
          omega)

/-! ## Wire values -/

theorem hexByte_ascii : ∀ c : Fin 256, (hexByte (UInt8.ofNat c.val)).any isSurrogate = false := by
  decide +kernel

theorem hex_ascii (b : Bytes) : (hex b).any isSurrogate = false := by
  have hflat : hex b = b.flatMap hexByte := rfl
  rw [hflat, List.any_flatMap, List.any_eq_false]
  intro c _
  have hc := hexByte_ascii ⟨c.toNat, c.toNat_lt⟩
  rw [UInt8.ofNat_toNat] at hc
  rw [hc]
  exact Bool.false_ne_true

/-- A high surrogate directly followed by a low one. -/
def hasPair : PyStr → Bool
  | [] => false
  | [_] => false
  | c :: d :: s =>
    (0xD800 ≤ c.val && c.val ≤ 0xDBFF && 0xDC00 ≤ d.val && d.val ≤ 0xDFFF) || hasPair (d :: s)

theorem hasPair_of_ascii (s : PyStr) (h : s.any isSurrogate = false) : hasPair s = false := by
  induction s with
  | nil => rfl
  | cons c s ih =>
      rw [List.any_cons, Bool.or_eq_false_iff] at h
      cases s with
      | nil => rfl
      | cons d s =>
          have hc : ¬ (0xD800 ≤ c.val ∧ c.val ≤ 0xDBFF) := by
            simp only [isSurrogate, decide_eq_false_iff_not] at h
            omega
          rw [hasPair, ih h.2, Bool.or_false]
          simp only [Bool.and_eq_false_iff, decide_eq_false_iff_not]
          omega

mutual

/-- A value that a JSON decoder can produce. -/
def Wire : PyVal → Prop
  | .str s => hasPair s = false
  | .list xs => WireList xs
  | .dict kvs => (kvs.map Prod.fst).Nodup ∧ WireItems kvs
  | _ => True

def WireList : List PyVal → Prop
  | [] => True
  | x :: xs => Wire x ∧ WireList xs

def WireItems : List (PyStr × PyVal) → Prop
  | [] => True
  | (k, x) :: xs => hasPair k = false ∧ Wire x ∧ WireItems xs

end

theorem WireItems.lookup {kvs : Msg} (h : WireItems kvs) {k : PyStr} {v : PyVal}
    (hk : lookup k kvs = some v) : Wire v := by
  induction kvs with
  | nil => simp only [WhisperNet.lookup, reduceCtorEq] at hk
  | cons e es ih =>
      rcases e with ⟨k', x⟩
      simp only [WireItems] at h
      by_cases hkk : k' = k
      · simp only [WhisperNet.lookup, if_pos hkk, Option.some.injEq] at hk
        rw [← hk]
        exact h.2.1
      · simp only [WhisperNet.lookup, if_neg hkk] at hk
        exact ih h.2.2 hk

/-- The values of a wire dictionary are wire values, a missing one included. -/
theorem Wire.get {kvs : Msg} (h : Wire (.dict kvs)) (k : PyStr) : Wire (PyVal.get kvs k) := by
  unfold PyVal.get
  cases hk : WhisperNet.lookup k kvs with
  | none => trivial
  | some v =>
      simp only [Wire] at h
      exact h.2.lookup hk

theorem WireItems.iff_forall (kvs : Msg) :
    WireItems kvs ↔ ∀ e ∈ kvs, hasPair e.1 = false ∧ Wire e.2 := by
  induction kvs with
  | nil => simp only [WireItems, List.not_mem_nil, false_implies, implies_true]
  | cons e es ih =>
      rcases e with ⟨k, x⟩
      simp only [WireItems, ih, List.mem_cons, forall_eq_or_imp, and_assoc]

/-- Assigning a wire value to a key of a wire dictionary. -/
theorem wire_assign (k : PyStr) (v : PyVal) (m : Msg) (hm : Wire (.dict m))
    (hk : hasPair k = false) (hv : Wire v) : Wire (.dict (assign k v m)) := by
  simp only [Wire, WireItems.iff_forall] at hm ⊢
  refine ⟨nodup_keys_assign k v m hm.1, fun e he => ?_⟩
  rcases mem_assign k v m e he with rfl | h
  · exact ⟨hk, hv⟩
  · exact hm.2 e h

/-! ## Sorted keys -/

mutual

/-- The value with the items of every dictionary in it sorted by key. -/
def sortKeys : PyVal → PyVal
  | .list xs => .list (sortKeysList xs)
  | .dict kvs => .dict ((sortKeysItems kvs).insertionSort (fun a b => a.1 ≤ b.1))
  | v => v

def sortKeysList : List PyVal → List PyVal
  | [] => []
  | x :: xs => sortKeys x :: sortKeysList xs

def sortKeysItems : List (PyStr × PyVal) → List (PyStr × PyVal)
  | [] => []
  | (k, x) :: xs => (k, sortKeys x) :: sortKeysItems xs

end

theorem keys_sortKeysItems (kvs : Msg) :
    (sortKeysItems kvs).map Prod.fst = kvs.map Prod.fst := by
  induction kvs with
  | nil => rfl
  | cons e es ih =>
      rcases e with ⟨k, x⟩
      simp only [sortKeysItems, List.map_cons, ih]

theorem lookup_sortKeysItems (kvs : Msg) (k : PyStr) :
    lookup k (sortKeysItems kvs) = (lookup k kvs).map sortKeys := by
  induction kvs with
  | nil => rfl
  | cons e es ih =>
      rcases e with ⟨k', x⟩
      by_cases hk : k' = k
      · simp only [sortKeysItems, lookup, if_pos hk, Option.map_some]
      · simp only [sortKeysItems, lookup, if_neg hk, ih]

mutual

/-- Sorting the keys of a wire value gives a wire value. -/
theorem Wire.sortKeys : ∀ v : PyVal, Wire v → Wire (sortKeys v)
  | .none, h => h
  | .bool _, h => h
  | .int _, h => h
  | .float _, h => h
  | .str _, h => h
  | .list xs, h => by
      simp only [WhisperNet.sortKeys, Wire] at h ⊢
      exact WireList.sortKeys xs h
  | .dict kvs, h => by
      simp only [Wire] at h
      have hperm := List.perm_insertionSort (fun a b => a.1 ≤ b.1) (sortKeysItems kvs)
      have hitems := WireItems.sortKeys kvs h.2
      simp only [WhisperNet.sortKeys, Wire]
      constructor
      · rw [(hperm.map Prod.fst).nodup_iff, keys_sortKeysItems]
        exact h.1
      · rw [WireItems.iff_forall] at hitems ⊢
        exact fun e he => hitems e (hperm.mem_iff.mp he)

theorem WireList.sortKeys : ∀ xs : List PyVal, WireList xs → WireList (sortKeysList xs)
  | [], h => h
  | x :: xs, h => by
      simp only [sortKeysList, WireList] at h ⊢
      exact ⟨Wire.sortKeys x h.1, WireList.sortKeys xs h.2⟩

theorem WireItems.sortKeys : ∀ kvs : Msg, WireItems kvs → WireItems (sortKeysItems kvs)
  | [], h => h
  | (k, x) :: kvs, h => by
      simp only [sortKeysItems, WireItems] at h ⊢
      exact ⟨h.1, Wire.sortKeys x h.2.1, WireItems.sortKeys kvs h.2.2⟩

end

/-- Items in another order are looked up the same, as long as no key repeats. -/
theorem lookup_perm {kvs kvs' : Msg} (hp : kvs.Perm kvs') (hnd : (kvs.map Prod.fst).Nodup)
    (k : PyStr) : lookup k kvs = lookup k kvs' := by
  have hnd' : (kvs'.map Prod.fst).Nodup := ((hp.map Prod.fst).nodup_iff).mp hnd
  cases hk : lookup k kvs' with
  | some v =>
      exact (mem_iff_lookup k v kvs hnd).mp (hp.mem_iff.mpr
        ((mem_iff_lookup k v kvs' hnd').mpr hk))
  | none =>
      rw [lookup_eq_none_iff] at hk ⊢
      exact fun hmem => hk ((hp.map Prod.fst).mem_iff.mp hmem)

/-- Dictionaries that agree once sorted agree at every key. -/
theorem lookup_of_sortKeys_eq (kvs kvs' : Msg) (hnd : (kvs.map Prod.fst).Nodup)
    (h : sortKeys (.dict kvs) = sortKeys (.dict kvs')) (k : PyStr) :
    (lookup k kvs).map sortKeys = (lookup k kvs').map sortKeys := by
  simp only [sortKeys, PyVal.dict.injEq] at h
  have hp := List.perm_insertionSort (fun a b => a.1 ≤ b.1) (sortKeysItems kvs)
  have hp' := List.perm_insertionSort (fun a b => a.1 ≤ b.1) (sortKeysItems kvs')
  rw [h] at hp
  rw [← lookup_sortKeysItems, ← lookup_sortKeysItems]
  exact lookup_perm (hp.symm.trans hp') (by rw [keys_sortKeysItems]; exact hnd) k

namespace Primitives

variable (P : Primitives)

/-- `json.dumps(v, sort_keys=True)`. -/
def dumpsSorted (v : PyVal) : PyStr := P.dumps (sortKeys v)

/-- The documented behaviour of the packages. -/
structure Lawful : Prop where
  loads_dumps : ∀ v, Wire v → P.loads (P.dumps v) = .ok v
  /-- The JSON text is ASCII. -/
  dumps_ascii : ∀ v, (P.dumps v).any isSurrogate = false
  b64 : ∀ b, P.b64decode (.str (P.b64encode b)) = .ok b
  /-- Base64 text is ASCII. -/
  b64_ascii : ∀ b, (P.b64encode b).any isSurrogate = false
  /-- Base64 text is empty only for no bytes. -/
  b64_nonempty : ∀ b, b ≠ [] → P.b64encode b ≠ []
  edPublic_nonempty : ∀ k, P.edPublic k ≠ []
  edSign_nonempty : ∀ k d, P.edSign k d ≠ []
  /-- A signature is good for the data it was made over and for no other. -/
  edVerify_edSign : ∀ k d d', P.edVerify (P.edPublic k) (P.edSign k d) d' = .ok () ↔ d' = d
  xPublic_length : ∀ k, (P.xPublic k).length = 32
  hkdf_length : ∀ i k, (P.hkdf i k).length = 32
  /-- Both sides of an exchange derive the same secret. -/
  exchange_comm : ∀ a b, ∃ s, P.exchange a (P.xPublic b) = .ok s ∧
    P.exchange b (P.xPublic a) = .ok s
  aes : ∀ k n d, k.length = 32 → n.length = 12 →
    ∃ c, P.aesEncrypt k n d = .ok c ∧ P.aesDecrypt k n c = .ok d

theorem dumps_inj (hP : P.Lawful) (v w : PyVal) (hv : Wire v) (hw : Wire w)
    (h : P.dumps v = P.dumps w) : v = w := by
  have hl := hP.loads_dumps v hv
  rw [h, hP.loads_dumps w hw, Except.ok.injEq] at hl
  exact hl.symm

end Primitives

end WhisperNet
