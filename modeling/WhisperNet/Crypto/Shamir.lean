import Mathlib.Data.Int.Bitwise
import WhisperNet.Python.Text

/-!
# Shamir Secret Sharing

The secret sharing of `whisper/crypto.py`: the bitwise multiplication of
GF(2^8), inversion by a power, the split of a byte string into shares, and the
reconstruction by Lagrange interpolation at zero.

Everything is on unbounded integers, as in the source. The multiplication
reads the low eight bits of its second argument only, and masks its first
argument only after the first round, so it is a field multiplication exactly
on bytes; nothing here restricts it to them.

## Main definitions

* `gfMul`: The product of two bytes.
* `gfInv`: The inverse of a byte, by the power 254.
* `shamirSplit`: The shares of a secret, for given random coefficients.
* `shamirReconstruct`: The secret from a list of shares.
-/

namespace WhisperNet

/-- One round of the multiplication: the product so far, `a` and `b`. Shifting
    by one is doubling, or halving toward minus infinity. -/
def gfStep (s : Int × Int × Int) : Int × Int × Int :=
  let (p, a, b) := s
  let p := if Int.land b 1 ≠ 0 then Int.xor p a else p
  let high := Int.land a 0x80
  let a := Int.land (2 * a) 0xFF
  let a := if high ≠ 0 then Int.xor a 0x1B else a
  (p, a, b / 2)

/-- `_gf_mul`. -/
def gfMul (a b : Int) : Int := (gfStep^[8] (0, a, b)).1

/-- The square-and-multiply loop. The exponent it starts from has eight bits,
    so eight rounds empty it. -/
def gfPowLoop : Nat → Int → Int → Nat → Int
  | 0, result, _, _ => result
  | fuel + 1, result, base, exp =>
    if exp = 0 then result
    else gfPowLoop fuel (if exp % 2 = 1 then gfMul result base else result)
      (gfMul base base) (exp / 2)

/-- `_gf_inv`. -/
def gfInv (a : Int) : Except PyErr Int :=
  if a = 0 then .error .valueError else .ok (gfPowLoop 8 1 a 254)

/-- A share: its coordinate and one byte for each byte of the secret. -/
abbrev Share := Int × Bytes

/-- Horner evaluation at `x` of the polynomial with these coefficients, the
    constant one first. -/
def gfEval (coeffs : List Int) (x : Int) : Int :=
  coeffs.reverse.foldl (fun val c => Int.xor (gfMul val x) c) 0

/-- The polynomial of one secret byte: the byte, then `t - 1` random ones. -/
def shamirCoeffs (t : Nat) (rand : Nat → UInt8) (byte : UInt8) : List Int :=
  (byte.toNat : Int) :: (List.range (t - 1)).map (fun j => ((rand j).toNat : Int))

/-- `bytes` of a value the field computed. -/
def byteOfInt (v : Int) : UInt8 := UInt8.ofNat v.toNat

/-- `shamir_split`: share `i` holds the value at `i + 1` of the polynomial of
    every byte; `rand b j` is the `j`-th random coefficient of byte `b`. -/
def shamirSplit (secret : Bytes) (n t : Nat) (rand : Nat → Nat → UInt8) : List Share :=
  (List.range n).map (fun i : Nat =>
    ((i : Int) + 1, secret.zipIdx.map (fun e =>
      byteOfInt (gfEval (shamirCoeffs t (rand e.2) e.1) ((i : Int) + 1)))))

/-- The Lagrange coefficient at zero of share `i`. -/
def lagrangeAtZero (shares : List Share) (i : Nat) (xi : Int) : Except PyErr Int :=
  shares.zipIdx.foldlM (fun li e =>
    if i = e.2 then .ok li
    else match gfInv (Int.xor xi e.1.1) with
      | .ok inv => .ok (gfMul li (gfMul e.1.1 inv))
      | .error err => .error err) 1

/-- One byte of the secret. -/
def reconstructByte (shares : List Share) (b : Nat) : Except PyErr Int :=
  shares.zipIdx.foldlM (fun s e =>
    match e.1.2[b]? with
    | none => .error .indexError
    | some yi => match lagrangeAtZero shares e.2 e.1.1 with
      | .ok li => .ok (Int.xor s (gfMul yi.toNat li))
      | .error err => .error err) 0

/-- Storing a value in a `bytearray`. -/
def toByte (v : Int) : Except PyErr UInt8 :=
  if 0 ≤ v ∧ v < 256 then .ok (UInt8.ofNat v.toNat) else .error .valueError

/-- `shamir_reconstruct`: as many bytes as the first share has. -/
def shamirReconstruct (shares : List Share) : Except PyErr Bytes :=
  match shares with
  | [] => .error .indexError
  | first :: _ => (List.range first.2.length).mapM (fun b =>
      match reconstructByte shares b with
      | .ok s => toByte s
      | .error e => .error e)

end WhisperNet
