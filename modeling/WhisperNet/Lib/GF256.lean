import Mathlib.Algebra.Field.Defs
import Mathlib.Data.List.Defs
import Mathlib.Tactic.Ring

/-!
# The Field of Bytes

The field with 256 elements as eight bits, with addition bit by bit and
multiplication modulo `x^8 + x^4 + x^3 + x + 1`. The product is the shift-and-add
loop: one summand for every bit of the second factor.

Addition and multiplication by a fixed factor commute with `xor`, and every
byte is the `xor` of its bits, so an identity that is additive in each variable
holds as soon as it holds for single bits. That leaves 512 cases for the
associativity of the product and 64 for its commutativity. Squaring is additive
as well, eight squarings are checked to give every bit back, and only zero and
one are their own squares. So the power 255 of an element other than zero is
one, and the power 254 inverts it.

## Main definitions

* `GF256`: A byte as an element of the field.
* `GF256.shift`: Multiplication by `x`.
* `GF256.sumOfBits`: A sum with one summand for every bit that is set.
* `GF256.mulLoop`: Some rounds of the multiplication.
* The field structure on `GF256`.

## Theorems

* `GF256.eq_of_bits`: Additive functions that agree on single bits are equal.
* `GF256.mulLoop_xor_left`, `GF256.mulLoop_xor_right`: The product is additive.
* `GF256.add_self`: The characteristic is two.
* `GF256.pow_256`: Eight squarings are the identity.
* `GF256.pow_254`: The power 254 inverts.
-/

namespace WhisperNet

/-- A byte, bit `i` being the coefficient of `x^i`. -/
@[ext] structure GF256 where
  bits : BitVec 8
  deriving DecidableEq

namespace GF256

/-- Multiplication by `x`. -/
def shift (a : BitVec 8) : BitVec 8 := (a <<< 1) ^^^ (if a.msb then 0x1B#8 else 0#8)

/-- The sum of the values at the bits that are set, the first value being for
    the lowest bit. -/
def sumOfBits : List (BitVec 8) → BitVec 8 → BitVec 8
  | [], _ => 0#8
  | v :: vs, b => (if b.getLsbD 0 then v else 0#8) ^^^ sumOfBits vs (b >>> 1)

/-- `n` rounds of the multiplication: the multiples of `a` by the low `n` bits
    of `b`. -/
def mulLoop : Nat → BitVec 8 → BitVec 8 → BitVec 8
  | 0, _, _ => 0#8
  | n + 1, a, b => (if b.getLsbD 0 then a else 0#8) ^^^ mulLoop n (shift a) (b >>> 1)

def mulBits (a b : BitVec 8) : BitVec 8 := mulLoop 8 a b

/-! ## Additivity -/

/-- Four summands, the inner two exchanged. -/
theorem xor_xor_xor_comm (a b c d : BitVec 8) : a ^^^ b ^^^ (c ^^^ d) = a ^^^ c ^^^ (b ^^^ d) := by
  rw [BitVec.xor_assoc, ← BitVec.xor_assoc b, BitVec.xor_comm b, BitVec.xor_assoc c,
    ← BitVec.xor_assoc]

/-- A summand for the sum of two bits. -/
theorem ite_xor (c d : Bool) (a : BitVec 8) : (if c ^^ d then a else 0#8) =
    (if c then a else 0#8) ^^^ (if d then a else 0#8) := by
  cases c with
  | true =>
      cases d with
      | true => exact BitVec.xor_self.symm
      | false => exact BitVec.xor_zero.symm
  | false =>
      cases d with
      | true => exact BitVec.zero_xor.symm
      | false => exact BitVec.zero_xor.symm

theorem shift_xor (a b : BitVec 8) : shift (a ^^^ b) = shift a ^^^ shift b := by
  unfold shift
  rw [BitVec.shiftLeft_xor_distrib, BitVec.msb_xor, ite_xor]
  exact xor_xor_xor_comm _ _ _ _

theorem mulLoop_xor_left (n : Nat) (a a' b : BitVec 8) :
    mulLoop n (a ^^^ a') b = mulLoop n a b ^^^ mulLoop n a' b := by
  induction n generalizing a a' b with
  | zero => exact BitVec.zero_xor.symm
  | succ n ih =>
      simp only [mulLoop]
      rw [shift_xor, ih]
      cases b.getLsbD 0 with
      | true => exact xor_xor_xor_comm a a' _ _
      | false =>
          have h := xor_xor_xor_comm 0#8 0#8 (mulLoop n (shift a) (b >>> 1))
            (mulLoop n (shift a') (b >>> 1))
          rw [BitVec.xor_self] at h
          exact h

theorem sumOfBits_xor (vs : List (BitVec 8)) (b c : BitVec 8) :
    sumOfBits vs (b ^^^ c) = sumOfBits vs b ^^^ sumOfBits vs c := by
  induction vs generalizing b c with
  | nil => exact BitVec.zero_xor.symm
  | cons v vs ih =>
      simp only [sumOfBits]
      rw [BitVec.ushiftRight_xor_distrib, ih, BitVec.getLsbD_xor, ite_xor]
      exact xor_xor_xor_comm _ _ _ _

theorem mulLoop_eq_sumOfBits (n : Nat) (a b : BitVec 8) :
    mulLoop n a b = sumOfBits (List.iterate shift a n) b := by
  induction n generalizing a b with
  | zero => rfl
  | succ n ih => rw [mulLoop, List.iterate, sumOfBits, ih]

theorem mulLoop_xor_right (n : Nat) (a b b' : BitVec 8) :
    mulLoop n a (b ^^^ b') = mulLoop n a b ^^^ mulLoop n a b' := by
  rw [mulLoop_eq_sumOfBits, mulLoop_eq_sumOfBits, mulLoop_eq_sumOfBits, sumOfBits_xor]

/-- The byte with one bit of another byte. -/
def bit (i : Nat) (a : BitVec 8) : BitVec 8 := if a.getLsbD i then 1#8 <<< i else 0#8

theorem xor_bits : ∀ a : BitVec 8, bit 0 a ^^^ bit 1 a ^^^ bit 2 a ^^^ bit 3 a ^^^ bit 4 a
    ^^^ bit 5 a ^^^ bit 6 a ^^^ bit 7 a = a := by
  decide +kernel

/-- Additive functions that agree on single bits are equal. -/
theorem eq_of_bits (f g : BitVec 8 → BitVec 8) (hf : ∀ a b, f (a ^^^ b) = f a ^^^ f b)
    (hg : ∀ a b, g (a ^^^ b) = g a ^^^ g b) (h : ∀ i < 8, f (1#8 <<< i) = g (1#8 <<< i))
    (a : BitVec 8) : f a = g a := by
  have hzero : ∀ k : BitVec 8 → BitVec 8, (∀ a b, k (a ^^^ b) = k a ^^^ k b) → k 0#8 = 0#8 := by
    intro k hk
    have h0 := hk 0#8 0#8
    rw [BitVec.xor_self, BitVec.xor_self] at h0
    exact h0
  have hbit : ∀ i < 8, f (bit i a) = g (bit i a) := by
    intro i hi
    unfold bit
    cases a.getLsbD i with
    | true => exact h i hi
    | false => exact (hzero f hf).trans (hzero g hg).symm
  rw [← xor_bits a]
  simp only [hf, hg]
  rw [hbit 0 (by omega), hbit 1 (by omega), hbit 2 (by omega), hbit 3 (by omega),
    hbit 4 (by omega), hbit 5 (by omega), hbit 6 (by omega), hbit 7 (by omega)]

/-! ## The laws of the product -/

theorem mulBits_xor_left (a a' b : BitVec 8) :
    mulBits (a ^^^ a') b = mulBits a b ^^^ mulBits a' b :=
  mulLoop_xor_left 8 a a' b

theorem mulBits_xor_right (a b b' : BitVec 8) :
    mulBits a (b ^^^ b') = mulBits a b ^^^ mulBits a b' :=
  mulLoop_xor_right 8 a b b'

theorem mulBits_comm (a b : BitVec 8) : mulBits a b = mulBits b a := by
  have hbits : ∀ i < 8, ∀ j < 8, mulBits (1#8 <<< i) (1#8 <<< j) =
      mulBits (1#8 <<< j) (1#8 <<< i) := by decide +kernel
  refine eq_of_bits (fun a => mulBits a b) (fun a => mulBits b a)
    (fun a a' => mulBits_xor_left a a' b) (fun a a' => mulBits_xor_right b a a')
    (fun i hi => ?_) a
  exact eq_of_bits (fun b => mulBits (1#8 <<< i) b) (fun b => mulBits b (1#8 <<< i))
    (fun b b' => mulBits_xor_right _ b b') (fun b b' => mulBits_xor_left b b' _)
    (fun j hj => hbits i hi j hj) b

theorem mulBits_assoc (a b c : BitVec 8) :
    mulBits (mulBits a b) c = mulBits a (mulBits b c) := by
  have hbits : ∀ i < 8, ∀ j < 8, ∀ k < 8,
      mulBits (mulBits (1#8 <<< i) (1#8 <<< j)) (1#8 <<< k) =
        mulBits (1#8 <<< i) (mulBits (1#8 <<< j) (1#8 <<< k)) := by decide +kernel
  -- One variable after the other is reduced to a single bit.
  refine eq_of_bits (fun a => mulBits (mulBits a b) c) (fun a => mulBits a (mulBits b c))
    (fun a a' => by simp only [mulBits_xor_left]) (fun a a' => mulBits_xor_left a a' _)
    (fun i hi => ?_) a
  refine eq_of_bits (fun b => mulBits (mulBits (1#8 <<< i) b) c)
    (fun b => mulBits (1#8 <<< i) (mulBits b c))
    (fun b b' => by simp only [mulBits_xor_left, mulBits_xor_right])
    (fun b b' => by simp only [mulBits_xor_left, mulBits_xor_right]) (fun j hj => ?_) b
  exact eq_of_bits (fun c => mulBits (mulBits (1#8 <<< i) (1#8 <<< j)) c)
    (fun c => mulBits (1#8 <<< i) (mulBits (1#8 <<< j) c))
    (fun c c' => mulBits_xor_right _ c c') (fun c c' => by simp only [mulBits_xor_right])
    (fun k hk => hbits i hi j hj k hk) c

theorem one_mulBits (a : BitVec 8) : mulBits 1#8 a = a :=
  eq_of_bits (fun a => mulBits 1#8 a) (fun a => a) (fun a a' => mulBits_xor_right _ a a')
    (fun _ _ => rfl) (by decide +kernel) a

instance : Zero GF256 := ⟨⟨0#8⟩⟩

instance : One GF256 := ⟨⟨1#8⟩⟩

instance : Add GF256 := ⟨fun a b => ⟨a.bits ^^^ b.bits⟩⟩

instance : Neg GF256 := ⟨fun a => a⟩

instance : Mul GF256 := ⟨fun a b => ⟨mulBits a.bits b.bits⟩⟩

instance : CommRing GF256 where
  add_assoc a b c := GF256.ext (BitVec.xor_assoc _ _ _)
  zero_add a := GF256.ext BitVec.zero_xor
  add_zero a := GF256.ext BitVec.xor_zero
  add_comm a b := GF256.ext (BitVec.xor_comm _ _)
  neg_add_cancel a := GF256.ext BitVec.xor_self
  mul_assoc a b c := GF256.ext (mulBits_assoc _ _ _)
  mul_comm a b := GF256.ext (mulBits_comm _ _)
  one_mul a := GF256.ext (one_mulBits _)
  mul_one a := GF256.ext ((mulBits_comm _ _).trans (one_mulBits _))
  left_distrib a b c := GF256.ext (mulBits_xor_right _ _ _)
  right_distrib a b c := GF256.ext (mulBits_xor_left _ _ _)
  zero_mul a := GF256.ext (by
    have h := mulBits_xor_left 0#8 0#8 a.bits
    rw [BitVec.xor_self, BitVec.xor_self] at h
    exact h)
  mul_zero a := GF256.ext (by
    have h := mulBits_xor_right a.bits 0#8 0#8
    rw [BitVec.xor_self, BitVec.xor_self] at h
    exact h)
  nsmul := nsmulRec
  zsmul := zsmulRec

theorem add_bits (a b : GF256) : (a + b).bits = a.bits ^^^ b.bits := rfl

/-- The characteristic is two. -/
theorem add_self (a : GF256) : a + a = 0 := GF256.ext BitVec.xor_self

theorem sub_eq_add' (a b : GF256) : a - b = a + b := sub_eq_add_neg a b

/-! ## Inversion -/

theorem sq_add (a b : GF256) : (a + b) ^ 2 = a ^ 2 + b ^ 2 := by
  have hcross : (a + b) ^ 2 = a ^ 2 + b ^ 2 + (a * b + a * b) := by ring
  rw [hcross, add_self, add_zero]

/-- Squaring eight times gives every element back. -/
theorem pow_256 (a : GF256) : a ^ 256 = a := by
  have hadd : ∀ n : Nat, ∀ a b : GF256, (a + b) ^ 2 ^ n = a ^ 2 ^ n + b ^ 2 ^ n := by
    intro n
    induction n with
    | zero => intro a b; rw [pow_zero, pow_one, pow_one, pow_one]
    | succ n ih => intro a b; rw [pow_succ, pow_mul, ih, sq_add, ← pow_mul, ← pow_mul]
  have hbits : ∀ i < 8, (fun b => mulBits b b)^[8] (1#8 <<< i) = 1#8 <<< i := by decide +kernel
  have hiter : ∀ (n : Nat) (b : BitVec 8),
      (fun b => mulBits b b)^[n] b = ((⟨b⟩ : GF256) ^ 2 ^ n).bits := by
    intro n
    induction n with
    | zero => intro b; rw [pow_zero, pow_one]; rfl
    | succ n ih =>
        intro b
        rw [Function.iterate_succ_apply', ih, pow_succ, pow_mul, pow_two]
        rfl
  refine GF256.ext (eq_of_bits (fun b => ((⟨b⟩ : GF256) ^ 2 ^ 8).bits) (fun b => b)
    (fun b c => congrArg GF256.bits (hadd 8 ⟨b⟩ ⟨c⟩)) (fun _ _ => rfl) (fun i hi => ?_) a.bits)
  rw [← hiter 8]
  exact hbits i hi

/-- The squares of the single bits, from the lowest on. -/
def squares : List (BitVec 8) := [1#8, 4#8, 16#8, 64#8, 27#8, 108#8, 171#8, 154#8]

/-- Squaring is additive, so a square is the sum of the squares of the bits. -/
theorem mulBits_self (b : BitVec 8) : mulBits b b = sumOfBits squares b := by
  refine eq_of_bits (fun b => mulBits b b) (sumOfBits squares) (fun b c => ?_)
    (sumOfBits_xor squares) (by decide +kernel) b
  have h := congrArg GF256.bits (sq_add ⟨b⟩ ⟨c⟩)
  rw [pow_two, pow_two, pow_two] at h
  exact h

/-- Only zero and one are their own squares. -/
theorem eq_zero_or_one (a : GF256) (ha : a ^ 2 = a) : a = 0 ∨ a = 1 := by
  have hall : ∀ b : BitVec 8, sumOfBits squares b = b → b = 0#8 ∨ b = 1#8 := by decide +kernel
  rw [pow_two] at ha
  have hbits := hall a.bits (by rw [← mulBits_self]; exact congrArg GF256.bits ha)
  rcases hbits with h | h
  · exact Or.inl (GF256.ext h)
  · exact Or.inr (GF256.ext h)

/-- The power 254 of an element other than zero inverts it. -/
theorem pow_254 (a : GF256) (ha : a ≠ 0) : a * a ^ 254 = 1 := by
  have hpow : a * a ^ 254 = a ^ 255 := by ring
  have hidem : (a ^ 255) ^ 2 = a ^ 255 := by
    have hsplit : (a ^ 255) ^ 2 = a ^ 254 * a ^ 256 := by ring
    rw [hsplit, pow_256]
    ring
  rw [hpow]
  rcases eq_zero_or_one _ hidem with h | h
  · -- Then the element itself is zero.
    have hself : a = a * a ^ 255 := by
      have hcube : a * a ^ 255 = a ^ 256 := by ring
      rw [hcube, pow_256]
    rw [h, mul_zero] at hself
    exact (ha hself).elim
  · exact h

instance : Nontrivial GF256 := ⟨⟨0, 1, by decide⟩⟩

instance : Inv GF256 := ⟨fun a => a ^ 254⟩

instance : Field GF256 where
  mul_inv_cancel a ha := pow_254 a ha
  inv_zero := zero_pow (by decide)
  nnqsmul := _
  nnqsmul_def := fun _ _ => rfl
  qsmul := _
  qsmul_def := fun _ _ => rfl

theorem inv_eq (a : GF256) : a⁻¹ = a ^ 254 := rfl

end GF256

end WhisperNet
