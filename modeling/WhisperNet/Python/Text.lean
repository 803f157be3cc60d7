import Mathlib.Algebra.Order.Floor.Defs
import Mathlib.Data.Rat.Floor
import WhisperNet.Python.Value

/-!
# Text and Bytes

The text operations behind the two attestations of a task: formatting a clock
reading, encoding a string to bytes, and hashing the bytes.

`encode` goes through the UTF-8 encoder of the core library once the string is
known to hold no surrogate, which is the one way `str.encode()` fails. `fixed6`
is the format `.6f`, which rounds the exact value half to even. `sha256` is the
hash of the standard library, one block at a time.

## Main definitions

* `Bytes`: A byte string.
* `encode`: `str.encode()`.
* `decode`: `bytes.decode()`.
* `decimal`: The decimal text of an integer.
* `fixed6`: The text of a number with six decimals.
* `sha256hex`: The hexadecimal SHA-256 digest of some bytes.

## Theorems

* `decode_encode`: Decoding what was encoded gives the string back.
-/

namespace WhisperNet

abbrev Bytes := List UInt8

/-- The code points UTF-8 has no encoding for. -/
def isSurrogate (c : CodePoint) : Bool := 0xD800 ≤ c.val ∧ c.val ≤ 0xDFFF

/-- The characters of a string without surrogates. -/
def toText (s : PyStr) : String := String.ofList (s.map (fun c => Char.ofNat c.val))

/-- `s.encode()`. -/
def encode (s : PyStr) : Except PyErr Bytes :=
  if s.any isSurrogate then .error .unicodeError
  else .ok (toText s).toByteArray.data.toList

/-- `b.decode()`. -/
def decode (b : Bytes) : Except PyErr PyStr :=
  if h : (ByteArray.mk b.toArray).IsValidUTF8 then .ok (lit (String.ofByteArray _ h))
  else .error .unicodeError

theorem ofNat_toNat_ofNat (c : CodePoint) (h : isSurrogate c = false) :
    Fin.ofNat 0x110000 (Char.ofNat c.val).toNat = c := by
  have hval : c.val.isValidChar := by
    have hlt := c.isLt
    simp only [isSurrogate, decide_eq_false_iff_not, not_and, Nat.not_le] at h
    unfold Nat.isValidChar
    omega
  have hnat : (Char.ofNat c.val).toNat = c.val := by
    rw [Char.ofNat, dif_pos hval]
    rfl
  rw [hnat]
  exact Fin.ext (Nat.mod_eq_of_lt c.isLt)

theorem lit_toText (s : PyStr) (h : s.any isSurrogate = false) : lit (toText s) = s := by
  unfold lit toText
  rw [String.toList_ofList, List.map_map]
  conv_rhs => rw [← List.map_id s]
  refine List.map_congr_left (fun c hc => ?_)
  have hs : isSurrogate c = false := by
    rw [List.any_eq_false] at h
    exact Bool.eq_false_iff.mpr (h c hc)
  exact ofNat_toNat_ofNat c hs

theorem decode_encode (s : PyStr) (b : Bytes) (h : encode s = .ok b) : decode b = .ok s := by
  unfold encode at h
  by_cases hs : s.any isSurrogate = true
  · rw [if_pos hs] at h
    exact absurd h (by simp only [reduceCtorEq, not_false_eq_true])
  · rw [if_neg hs, Except.ok.injEq] at h
    have harr : ByteArray.mk b.toArray = (toText s).toByteArray := by
      rw [← h]
    have hvalid : (ByteArray.mk b.toArray).IsValidUTF8 := by
      rw [harr]
      exact (toText s).isValidUTF8
    have hstr : String.ofByteArray (ByteArray.mk b.toArray) hvalid = toText s := by
      rw [← String.toByteArray_inj]
      exact harr
    rw [decode, dif_pos hvalid, hstr, lit_toText s (Bool.eq_false_iff.mpr hs)]

/-- The decimal digits of an integer. -/
def decimal (n : Int) : PyStr :=
  if n < 0 then lit "-" ++ lit (Nat.repr n.natAbs) else lit (Nat.repr n.natAbs)

/-- The format `.6f`. -/
def fixed6 (q : ℚ) : PyStr :=
  let n := (roundHalfEven (|q| * 1000000)).natAbs
  let frac := Nat.repr (n % 1000000)
  (if q < 0 then lit "-" else []) ++ lit (Nat.repr (n / 1000000)) ++ lit "."
    ++ lit (String.ofList (List.replicate (6 - frac.length) '0')) ++ lit frac

/-- A literal has no surrogates, as characters are none. -/
theorem lit_encodable (s : String) : (lit s).any isSurrogate = false := by
  rw [List.any_eq_false]
  intro c hc
  rcases List.mem_map.mp hc with ⟨ch, _, hch⟩
  have hvalid : ch.toNat < 0xD800 ∨ 0xDFFF < ch.toNat ∧ ch.toNat < 0x110000 := ch.valid
  have hval : c.val = ch.toNat := by
    rw [← hch]
    exact Nat.mod_eq_of_lt (by omega)
  simp only [isSurrogate, hval, decide_eq_true_eq]
  omega

theorem fixed6_encodable (q : ℚ) : (fixed6 q).any isSurrogate = false := by
  have hsign : (if q < 0 then lit "-" else []).any isSurrogate = false := by
    split
    · exact lit_encodable "-"
    · rfl
  simp only [fixed6, List.any_append, hsign, lit_encodable, Bool.or_false]

/-! ## SHA-256 -/

def sha256K : List UInt32 :=
  [0x428a2f98, 0x71374491, 0xb5c0fbcf, 0xe9b5dba5, 0x3956c25b, 0x59f111f1, 0x923f82a4, 0xab1c5ed5,
   0xd807aa98, 0x12835b01, 0x243185be, 0x550c7dc3, 0x72be5d74, 0x80deb1fe, 0x9bdc06a7, 0xc19bf174,
   0xe49b69c1, 0xefbe4786, 0x0fc19dc6, 0x240ca1cc, 0x2de92c6f, 0x4a7484aa, 0x5cb0a9dc, 0x76f988da,
   0x983e5152, 0xa831c66d, 0xb00327c8, 0xbf597fc7, 0xc6e00bf3, 0xd5a79147, 0x06ca6351, 0x14292967,
   0x27b70a85, 0x2e1b2138, 0x4d2c6dfc, 0x53380d13, 0x650a7354, 0x766a0abb, 0x81c2c92e, 0x92722c85,
   0xa2bfe8a1, 0xa81a664b, 0xc24b8b70, 0xc76c51a3, 0xd192e819, 0xd6990624, 0xf40e3585, 0x106aa070,
   0x19a4c116, 0x1e376c08, 0x2748774c, 0x34b0bcb5, 0x391c0cb3, 0x4ed8aa4a, 0x5b9cca4f, 0x682e6ff3,
   0x748f82ee, 0x78a5636f, 0x84c87814, 0x8cc70208, 0x90befffa, 0xa4506ceb, 0xbef9a3f7, 0xc67178f2]

def sha256Init : List UInt32 :=
  [0x6a09e667, 0xbb67ae85, 0x3c6ef372, 0xa54ff53a, 0x510e527f, 0x9b05688c, 0x1f83d9ab, 0x5be0cd19]

def rotr (x : UInt32) (n : UInt32) : UInt32 := (x >>> n) ||| (x <<< (32 - n))

/-- The bytes of a natural number, most significant first. -/
def bigEndian (len n : Nat) : Bytes :=
  (List.range len).map (fun i => UInt8.ofNat (n >>> (8 * (len - 1 - i))))

/-- The message with its bit length, padded to whole blocks of 64 bytes. -/
def sha256Pad (b : Bytes) : Bytes :=
  b ++ [0x80] ++ List.replicate ((119 - b.length % 64) % 64) 0 ++ bigEndian 8 (8 * b.length)

/-- The sixteen words of a block. -/
def sha256Words (b : Bytes) : List UInt32 :=
  (List.range 16).map (fun i => (List.range 4).foldl
    (fun w j => (w <<< 8) ||| (b.getD (4 * i + j) 0).toUInt32) 0)

/-- The message schedule: the words so far, newest first, extended `n` times. -/
def sha256Schedule : Nat → List UInt32 → List UInt32
  | 0, ws => ws
  | n + 1, ws =>
    let w15 := ws.getD 14 0
    let w2 := ws.getD 1 0
    let s0 := rotr w15 7 ^^^ rotr w15 18 ^^^ (w15 >>> 3)
    let s1 := rotr w2 17 ^^^ rotr w2 19 ^^^ (w2 >>> 10)
    sha256Schedule n ((ws.getD 15 0 + s0 + ws.getD 6 0 + s1) :: ws)

/-- One round on the eight working variables. -/
def sha256Round (h : List UInt32) (kw : UInt32 × UInt32) : List UInt32 :=
  match h with
  | [a, b, c, d, e, f, g, hh] =>
    let s1 := rotr e 6 ^^^ rotr e 11 ^^^ rotr e 25
    let ch := (e &&& f) ^^^ ((~~~ e) &&& g)
    let t1 := hh + s1 + ch + kw.1 + kw.2
    let s0 := rotr a 2 ^^^ rotr a 13 ^^^ rotr a 22
    let maj := (a &&& b) ^^^ (a &&& c) ^^^ (b &&& c)
    [t1 + s0 + maj, a, b, c, d + t1, e, f, g]
  | _ => h

def sha256Block (h : List UInt32) (b : Bytes) : List UInt32 :=
  let ws := (sha256Schedule 48 (sha256Words b).reverse).reverse
  List.zipWith (· + ·) h ((sha256K.zip ws).foldl sha256Round h)

def sha256Blocks : Nat → List UInt32 → Bytes → List UInt32
  | 0, h, _ => h
  | n + 1, h, b => sha256Blocks n (sha256Block h (b.take 64)) (b.drop 64)

/-- The hexadecimal digits of some bytes. -/
def hex (b : Bytes) : PyStr :=
  b.flatMap (fun c => lit (String.ofList [Nat.digitChar (c.toNat / 16),
    Nat.digitChar (c.toNat % 16)]))

/-- `hashlib.sha256(b).hexdigest()`. -/
def sha256hex (b : Bytes) : PyStr :=
  let padded := sha256Pad b
  hex ((sha256Blocks (padded.length / 64) sha256Init padded).flatMap
    (fun w => bigEndian 4 w.toNat))

end WhisperNet
