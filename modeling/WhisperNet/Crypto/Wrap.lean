import WhisperNet.Crypto.Shamir
import WhisperNet.Lib.GF256

/-!
# Coordinates That Are No Bytes

The operations of the secret sharing take any integers, and the coordinate of a
share that comes from a peer can be any integer. The multiplication reads the
low eight bits of its second argument. Its first argument is masked after one
round, so only the high bits of that one can get into a product, and those of a
coordinate are multiplied away: a Lagrange coefficient is always the second
argument or a byte.

So a reconstruction from shares with any coordinates is the field computation
on the low bytes of the coordinates. The one thing the field does not tell
apart is two coordinates with the same low byte, whose difference the source
inverts to zero, as the field does.

## Main definitions

* `GF256.toInt`, `GF256.ofInt`, `GF256.ofByte`: The integer and the byte of a
  field element.
* `wrap`: The low byte of an integer, as a field element.
* `weight`: The Lagrange coefficient of the share at a place.
* `combine`: What a reconstruction computes for one byte.
* `AddUp`: Shares that give a key back.

## Theorems

* `eq_of_testBit`: Integers with the same bits are equal.
* `wrap_xor`, `wrap_gfMul`, `gfMul_wrap`: The operations on any integers.
* `gfInv_wrap`: The inverse of a difference.
* `reconstructByte_eq`: One byte from shares with any coordinates.
* `shamirReconstruct_addUp`, `shamirReconstruct_not_addUp`: When shares give a
  key back.
-/

namespace WhisperNet

namespace GF256

/-- The integer the source represents an element by. -/
def toInt (a : GF256) : Int := (a.bits.toNat : Int)

def ofInt (v : Int) : GF256 := ⟨BitVec.ofNat 8 v.toNat⟩

def ofByte (c : UInt8) : GF256 := ⟨c.toBitVec⟩

theorem toInt_ofInt (v : Int) (h0 : 0 ≤ v) (h : v < 256) : (ofInt v).toInt = v := by
  unfold ofInt toInt
  rw [BitVec.toNat_ofNat]
  omega

theorem toInt_ofByte (c : UInt8) : (ofByte c).toInt = (c.toNat : Int) := rfl

theorem toInt_nonneg (a : GF256) : 0 ≤ a.toInt ∧ a.toInt < 256 := by
  have h := a.bits.isLt
  unfold toInt
  omega

/-- Storing an element as a byte keeps it. -/
theorem ofByte_byteOfInt (a : GF256) : ofByte (byteOfInt a.toInt) = a := by
  have hlt := a.bits.isLt
  refine GF256.ext (BitVec.eq_of_toNat_eq ?_)
  change (UInt8.ofNat (a.bits.toNat : Int).toNat).toNat = a.bits.toNat
  rw [Int.toNat_natCast, UInt8.toNat_ofNat']
  omega

end GF256

open GF256

theorem byteOfInt_toInt_eq_iff (a : GF256) (y : UInt8) : byteOfInt a.toInt = y ↔ a = ofByte y := by
  constructor
  · intro h
    rw [← h, ofByte_byteOfInt]
  · intro h
    rw [← ofByte_byteOfInt a] at h
    exact UInt8.eq_of_toBitVec_eq (congrArg GF256.bits h)

theorem xor_toInt (a b : GF256) : Int.xor a.toInt b.toInt = (a + b).toInt := by
  unfold toInt
  rw [add_bits, BitVec.toNat_xor]
  rfl

/-! ## The bits of an integer -/

/-- Integers with the same bits are equal. -/
theorem eq_of_testBit (m n : Int) (h : ∀ i, m.testBit i = n.testBit i) : m = n := by
  -- From some bit on, all bits are the sign.
  have hsign : ∀ a b : Nat, ¬ ∀ i, Nat.testBit a i = !Nat.testBit b i := by
    intro a b hab
    have ha : a < 2 ^ (a + b) := lt_of_le_of_lt (Nat.le_add_right a b) Nat.lt_two_pow_self
    have hb : b < 2 ^ (a + b) := lt_of_le_of_lt (Nat.le_add_left b a) Nat.lt_two_pow_self
    have hbit := hab (a + b)
    rw [Nat.testBit_lt_two_pow ha, Nat.testBit_lt_two_pow hb] at hbit
    exact Bool.false_ne_true hbit
  cases m with
  | ofNat a =>
      cases n with
      | ofNat b => exact congrArg Int.ofNat (Nat.eq_of_testBit_eq h)
      | negSucc b => exact (hsign a b h).elim
  | negSucc a =>
      cases n with
      | ofNat b => exact (hsign b a (fun i => (h i).symm)).elim
      | negSucc b =>
          exact congrArg Int.negSucc (Nat.eq_of_testBit_eq (fun i => Bool.not_inj (h i)))

theorem testBit_half (b : Int) (i : Nat) : (b / 2).testBit i = b.testBit (i + 1) := by
  conv_rhs => rw [← Int.bit_decomp b, Int.testBit_bit_succ, Int.div2_val]

theorem testBit_double_succ (a : Int) (i : Nat) : (2 * a).testBit (i + 1) = a.testBit i := by
  have hbit : 2 * a = Int.bit false a := by rw [Int.bit_val, cond_false, add_zero]
  rw [hbit, Int.testBit_bit_succ]

theorem testBit_double_zero (a : Int) : (2 * a).testBit 0 = false := by
  have hbit : 2 * a = Int.bit false a := by rw [Int.bit_val, cond_false, add_zero]
  rw [hbit, Int.testBit_bit_zero]

/-- The low byte of an integer. -/
def wrap (v : Int) : GF256 := ⟨BitVec.ofInt 8 v⟩

theorem getLsbD_wrap (v : Int) {i : Nat} (hi : i < 8) :
    (wrap v).bits.getLsbD i = v.testBit i := by
  cases v with
  | ofNat m =>
      change (BitVec.ofInt 8 (m : Int)).getLsbD i = m.testBit i
      rw [BitVec.ofInt_natCast, BitVec.getLsbD_ofNat, decide_eq_true hi, Bool.true_and]
  | negSucc m =>
      change (BitVec.ofInt 8 (Int.negSucc m)).getLsbD i = !m.testBit i
      rw [BitVec.ofInt_negSucc_eq_not_ofNat, BitVec.getLsbD_not, BitVec.getLsbD_ofNat,
        decide_eq_true hi, Bool.true_and, Bool.true_and]

theorem wrap_toInt (a : GF256) : wrap a.toInt = a := by
  unfold wrap toInt
  rw [BitVec.ofInt_natCast, BitVec.ofNat_toNat, BitVec.setWidth_eq]

theorem testBit_toInt (a : GF256) (i : Nat) : a.toInt.testBit i = a.bits.getLsbD i := rfl

theorem wrap_xor (a b : Int) : wrap (Int.xor a b) = wrap a + wrap b := by
  refine GF256.ext (BitVec.eq_of_getLsbD_eq (fun i hi => ?_))
  rw [getLsbD_wrap _ hi, Int.testBit_lxor, add_bits, BitVec.getLsbD_xor, getLsbD_wrap _ hi,
    getLsbD_wrap _ hi]

/-- The mask of the low byte. -/
theorem land_mask (v : Int) : Int.land v 0xFF = (wrap v).toInt := by
  have hmask : ∀ i : Nat, (0xFF : Int).testBit i = decide (i < 8) := by
    intro i
    change Nat.testBit (2 ^ 8 - 1) i = decide (i < 8)
    rw [Nat.testBit_two_pow_sub_one]
  refine eq_of_testBit _ _ (fun i => ?_)
  rw [Int.testBit_land, hmask, testBit_toInt]
  by_cases hi : i < 8
  · rw [decide_eq_true hi, Bool.and_true, getLsbD_wrap _ hi]
  · rw [decide_eq_false hi, Bool.and_false, BitVec.getLsbD_of_ge _ _ (Nat.le_of_not_lt hi)]

/-- Masking twice with a byte, the first time with all of its bits. -/
theorem land_byte (v : Int) (c : GF256) : Int.land v c.toInt = Int.land (wrap v).toInt c.toInt := by
  refine eq_of_testBit _ _ (fun i => ?_)
  rw [Int.testBit_land, Int.testBit_land, testBit_toInt, testBit_toInt]
  by_cases hi : i < 8
  · rw [getLsbD_wrap _ hi]
  · rw [BitVec.getLsbD_of_ge _ _ (Nat.le_of_not_lt hi), Bool.and_false, Bool.and_false]

theorem wrap_double (v : Int) : wrap (2 * v) = wrap (2 * (wrap v).toInt) := by
  refine GF256.ext (BitVec.eq_of_getLsbD_eq (fun i hi => ?_))
  rw [getLsbD_wrap _ hi, getLsbD_wrap _ hi]
  cases i with
  | zero => rw [testBit_double_zero, testBit_double_zero]
  | succ i =>
      rw [testBit_double_succ, testBit_double_succ, testBit_toInt, getLsbD_wrap _ (by omega)]

/-! ## The operations -/

/-- One round on any integers. The first argument leaves it as a byte. -/
theorem gfStep_eq (p a b : Int) :
    gfStep (p, a, b) = (if b.testBit 0 then Int.xor p a else p,
      ((shift (wrap a).bits).toNat : Int), b / 2) := by
  have hbytes : ∀ c : BitVec 8, (Int.land (c.toNat : Int) 1 ≠ 0) ↔ c.getLsbD 0 = true := by
    decide +kernel
  have hshift : ∀ c : BitVec 8, (if Int.land (c.toNat : Int) 0x80 ≠ 0 then
      Int.xor (Int.land (2 * (c.toNat : Int)) 0xFF) 0x1B
      else Int.land (2 * (c.toNat : Int)) 0xFF) = ((shift c).toNat : Int) := by
    decide +kernel
  -- Every test and every shift of the round looks at a low byte only.
  have hlow : Int.land b 1 ≠ 0 ↔ b.testBit 0 = true := by
    have hland : Int.land b 1 = Int.land (wrap b).toInt 1 := land_byte b ⟨1#8⟩
    rw [← getLsbD_wrap b (by decide), ← hbytes, hland]
    exact Iff.rfl
  have hhigh : Int.land a 0x80 = Int.land (wrap a).toInt 0x80 := land_byte a ⟨0x80#8⟩
  have hdouble : Int.land (2 * a) 0xFF = Int.land (2 * (wrap a).toInt) 0xFF := by
    rw [land_mask, land_mask, wrap_double]
  unfold gfStep
  simp only [hlow, hhigh, hdouble]
  rw [← hshift]
  rfl

/-- Rounds on a byte: only the low bits of the second argument count. -/
theorem gfStep_iterate (n : Nat) (p : Int) (a : BitVec 8) (b : Int) (c : BitVec 8)
    (h : ∀ i < n, c.getLsbD i = b.testBit i) :
    (gfStep^[n] (p, (a.toNat : Int), b)).1 = Int.xor p ((mulLoop n a c).toNat : Int) := by
  induction n generalizing p a b c with
  | zero =>
      refine eq_of_testBit _ _ (fun i => ?_)
      rw [Int.testBit_lxor]
      have hzero : (((mulLoop 0 a c).toNat : Int)).testBit i = false := Nat.zero_testBit i
      rw [hzero, Bool.xor_false]
      rfl
  | succ n ih =>
      -- The step shifts the second factor, so its bits move down by one.
      have hnext : ∀ i < n, (c >>> 1).getLsbD i = (b / 2).testBit i := by
        intro i hi
        rw [BitVec.getLsbD_ushiftRight, testBit_half, ← h (i + 1) (by omega), Nat.add_comm]
      have hbyte : wrap (a.toNat : Int) = ⟨a⟩ := wrap_toInt ⟨a⟩
      rw [Function.iterate_succ_apply, gfStep_eq, hbyte, ih _ _ _ _ hnext, mulLoop,
        h 0 (Nat.succ_pos n)]
      refine eq_of_testBit _ _ (fun i => ?_)
      rw [BitVec.toNat_xor]
      cases b.testBit 0 with
      | true =>
          rw [if_pos rfl, if_pos rfl, Int.testBit_lxor, Int.testBit_lxor, Int.testBit_lxor,
            Bool.xor_assoc]
          exact congrArg _ (Nat.testBit_xor ..).symm
      | false =>
          rw [if_neg Bool.false_ne_true, if_neg Bool.false_ne_true, BitVec.toNat_zero,
            Nat.zero_xor]

/-- A product is the first argument, if the second one is odd, and a byte. -/
theorem gfMul_eq (a b : Int) :
    gfMul a b = Int.xor (if b.testBit 0 then a else 0)
      ((mulLoop 7 (shift (wrap a).bits) ((wrap b).bits >>> 1)).toNat : Int) := by
  have hbits : ∀ i < 7, ((wrap b).bits >>> 1).getLsbD i = (b / 2).testBit i := by
    intro i hi
    rw [BitVec.getLsbD_ushiftRight, testBit_half, getLsbD_wrap _ (by omega), Nat.add_comm]
  have hzero : Int.xor 0 a = a := by
    refine eq_of_testBit _ _ (fun i => ?_)
    have hbit : (0 : Int).testBit i = false := Nat.zero_testBit i
    rw [Int.testBit_lxor, hbit, Bool.false_xor]
  rw [gfMul, Function.iterate_succ_apply, gfStep_eq, gfStep_iterate 7 _ _ _ _ hbits, hzero]

theorem mul_bits (a b : GF256) :
    (a * b).bits = (if b.bits.getLsbD 0 then a.bits else 0#8) ^^^
      mulLoop 7 (shift a.bits) (b.bits >>> 1) := rfl

theorem wrap_gfMul (a b : Int) : wrap (gfMul a b) = wrap a * wrap b := by
  have hsum : ∀ c : BitVec 8, wrap (c.toNat : Int) = ⟨c⟩ := fun c => wrap_toInt ⟨c⟩
  refine GF256.ext ?_
  rw [gfMul_eq, wrap_xor, add_bits, hsum, mul_bits, getLsbD_wrap b (by decide)]
  cases b.testBit 0 with
  | true => rfl
  | false => rfl

/-- A byte times any integer is a byte. -/
theorem gfMul_wrap (a : GF256) (b : Int) : gfMul a.toInt b = (a * wrap b).toInt := by
  have hsplit : (a * wrap b).toInt = (((if b.testBit 0 then a.bits else 0#8) ^^^
      mulLoop 7 (shift a.bits) ((wrap b).bits >>> 1)).toNat : Int) := by
    rw [toInt, mul_bits, getLsbD_wrap b (by decide)]
  rw [gfMul_eq, wrap_toInt, hsplit, BitVec.toNat_xor]
  cases b.testBit 0 with
  | true => rfl
  | false => rfl

/-- Square and multiply, with enough rounds for the exponent. -/
theorem gfPowLoop_wrap (fuel : Nat) (r : GF256) (a : Int) (e : Nat) (he : e < 2 ^ fuel) :
    gfPowLoop fuel r.toInt a e = (r * wrap a ^ e).toInt := by
  induction fuel generalizing r a e with
  | zero =>
      have hzero : e = 0 := by omega
      rw [hzero, pow_zero, mul_one]
      rfl
  | succ fuel ih =>
      rw [gfPowLoop]
      by_cases hzero : e = 0
      · rw [if_pos hzero, hzero, pow_zero, mul_one]
      · rw [if_neg hzero]
        have hhalf : e / 2 < 2 ^ fuel := by
          rw [pow_succ] at he
          omega
        by_cases hodd : e % 2 = 1
        · have hsplit : e = e / 2 + e / 2 + 1 := by omega
          rw [if_pos hodd, gfMul_wrap, ih _ _ _ hhalf, wrap_gfMul]
          conv_rhs => rw [hsplit]
          rw [mul_pow, pow_succ, pow_add, mul_assoc, mul_comm (wrap a)]
        · have hsplit : e = e / 2 + e / 2 := by omega
          rw [if_neg hodd, ih _ _ _ hhalf, wrap_gfMul]
          conv_rhs => rw [hsplit]
          rw [mul_pow, pow_add]

/-- The inverse of any integer but zero is that of its low byte, zero included. -/
theorem gfInv_wrap {a : Int} (ha : a ≠ 0) : gfInv a = .ok ((wrap a)⁻¹).toInt := by
  have hone : (1 : Int) = (1 : GF256).toInt := rfl
  rw [gfInv, if_neg ha, hone, gfPowLoop_wrap 8 1 a 254 (by decide), one_mul, inv_eq]

/-! ## The reconstruction -/

/-- A loop on integers that follows one on field elements. -/
theorem foldlM_toInt {α : Type} (f : Int → α → Except PyErr Int) (g : GF256 → α → GF256)
    (xs : List α) (h : ∀ v, ∀ e ∈ xs, f v.toInt e = .ok (g v e).toInt) (v : GF256) :
    xs.foldlM f v.toInt = .ok (xs.foldl g v).toInt := by
  induction xs generalizing v with
  | nil => rfl
  | cons e xs ih =>
      rw [List.foldlM_cons, h v e (List.mem_cons_self ..), List.foldl_cons]
      exact ih (fun v' e' he' => h v' e' (List.mem_cons_of_mem _ he')) (g v e)

/-- The Lagrange coefficient at zero of a share at a place, whatever the
    coordinates: one factor for every share at another place. -/
def weight (shares : List Share) (i : Nat) (xi : Int) : GF256 :=
  ((shares.zipIdx.filter (fun d => d.2 ≠ i)).map
    (fun d => wrap d.1.1 * (wrap xi + wrap d.1.1)⁻¹)).prod

/-- What the shares add up to at one byte. -/
def combine (shares : List Share) (b : Nat) : GF256 :=
  (shares.zipIdx.map (fun e => ofByte (e.1.2.getD b 0) * weight shares e.2 e.1.1)).sum

theorem foldl_factors (ds : List (Share × Nat)) (i : Nat) (f : Share × Nat → GF256) (v : GF256) :
    ds.foldl (fun li d => if i = d.2 then li else li * f d) v =
      v * ((ds.filter (fun d => d.2 ≠ i)).map f).prod := by
  induction ds generalizing v with
  | nil => exact (mul_one v).symm
  | cons d ds ih =>
      rw [List.foldl_cons, ih]
      by_cases hi : i = d.2
      · rw [if_pos hi,
          List.filter_cons_of_neg (by rw [hi, decide_eq_true_iff]; exact not_not.mpr rfl)]
      · have hkeep : (d :: ds).filter (fun d => d.2 ≠ i) = d :: ds.filter (fun d => d.2 ≠ i) :=
          List.filter_cons_of_pos (decide_eq_true (Ne.symm hi))
        rw [if_neg hi, hkeep, List.map_cons, List.prod_cons, mul_assoc]

theorem foldl_add {α : Type} (xs : List α) (f : α → GF256) (v : GF256) :
    xs.foldl (fun s e => s + f e) v = v + (xs.map f).sum := by
  induction xs generalizing v with
  | nil => exact (add_zero v).symm
  | cons e xs ih => rw [List.foldl_cons, ih, List.map_cons, List.sum_cons, add_assoc]

theorem xor_ne_zero {a b : Int} (h : a ≠ b) : Int.xor a b ≠ 0 := by
  intro hc
  refine h (eq_of_testBit _ _ (fun i => ?_))
  have hbit : (Int.xor a b).testBit i = false := by rw [hc]; exact Nat.zero_testBit i
  rw [Int.testBit_lxor] at hbit
  cases ha : a.testBit i with
  | true =>
      rw [ha, Bool.true_xor, Bool.not_eq_false'] at hbit
      exact hbit.symm
  | false =>
      rw [ha, Bool.false_xor] at hbit
      exact hbit.symm

/-- Shares at different places have different coordinates. -/
theorem coordinate_ne {shares : List Share} (hnd : (shares.map Prod.fst).Nodup) {i j : Nat}
    {e d : Share} (he : shares[i]? = some e) (hd : shares[j]? = some d) (hij : i ≠ j) :
    e.1 ≠ d.1 := by
  intro hx
  have hi : (shares.map Prod.fst)[i]? = some e.1 := by rw [List.getElem?_map, he]; rfl
  have hj : (shares.map Prod.fst)[j]? = some d.1 := by rw [List.getElem?_map, hd]; rfl
  have hlt : i < (shares.map Prod.fst).length := (List.getElem?_eq_some_iff.mp hi).1
  exact hij ((List.getElem?_inj hlt hnd).mp (by rw [hi, hj, hx]))

/-- A Lagrange coefficient is a byte, and no inversion fails. -/
theorem lagrangeAtZero_eq {shares : List Share} (hnd : (shares.map Prod.fst).Nodup) {i : Nat}
    {e : Share} (he : shares[i]? = some e) :
    lagrangeAtZero shares i e.1 = .ok (weight shares i e.1).toInt := by
  have hone : (1 : Int) = (1 : GF256).toInt := rfl
  unfold lagrangeAtZero
  rw [hone, foldlM_toInt _ (fun li d => if i = d.2 then li
    else li * (wrap d.1.1 * (wrap e.1 + wrap d.1.1)⁻¹)), foldl_factors, one_mul]
  · rfl
  · intro v d hd
    by_cases hi : i = d.2
    · rw [if_pos hi, if_pos hi]
    · have hne := coordinate_ne hnd he (List.mem_zipIdx_iff_getElem?.mp hd) hi
      rw [if_neg hi, if_neg hi, gfInv_wrap (xor_ne_zero hne)]
      simp only [gfMul_wrap, wrap_gfMul, wrap_xor, wrap_toInt]

/-- One byte, from shares that all have it. -/
theorem reconstructByte_eq {shares : List Share} (hnd : (shares.map Prod.fst).Nodup) {b : Nat}
    (hlen : ∀ e ∈ shares, b < e.2.length) :
    reconstructByte shares b = .ok (combine shares b).toInt := by
  have hzero : (0 : Int) = (0 : GF256).toInt := rfl
  unfold reconstructByte
  rw [hzero, foldlM_toInt _ (fun s d =>
    s + ofByte (d.1.2.getD b 0) * weight shares d.2 d.1.1), foldl_add, zero_add]
  · rfl
  · intro v d hd
    have hplace := List.mem_zipIdx_iff_getElem?.mp hd
    have hlt := hlen d.1 (List.mem_of_getElem? hplace)
    simp only [List.getElem?_eq_getElem hlt, lagrangeAtZero_eq hnd hplace]
    rw [← toInt_ofByte, gfMul_wrap, wrap_toInt, xor_toInt, List.getD_eq_getElem _ _ hlt]

theorem mapM_ok {α β : Type} (f : α → Except PyErr β) (g : α → β) (xs : List α)
    (h : ∀ a ∈ xs, f a = .ok (g a)) : xs.mapM f = .ok (xs.map g) := by
  induction xs with
  | nil => rfl
  | cons a xs ih =>
      rw [List.mapM_cons, h a (List.mem_cons_self ..),
        ih (fun b hb => h b (List.mem_cons_of_mem _ hb))]
      rfl

theorem toByte_toInt (a : GF256) : toByte a.toInt = .ok (byteOfInt a.toInt) :=
  if_pos (toInt_nonneg a)

/-- A reconstruction from shares that are all as long as the first one. -/
theorem shamirReconstruct_eq {first : Share} {rest : List Share}
    (hnd : ((first :: rest).map Prod.fst).Nodup)
    (hlong : ∀ e ∈ first :: rest, first.2.length ≤ e.2.length) :
    shamirReconstruct (first :: rest) = .ok ((List.range first.2.length).map
      (fun b => byteOfInt (combine (first :: rest) b).toInt)) := by
  refine mapM_ok _ _ _ (fun b hb => ?_)
  have hlen : ∀ e ∈ first :: rest, b < e.2.length :=
    fun e he => lt_of_lt_of_le (List.mem_range.mp hb) (hlong e he)
  simp only [reconstructByte_eq hnd hlen, toByte_toInt]

/-- Shares that give a key back: none of them is too short, and at every byte
    they add up to that of the key. -/
structure AddUp (shares : List Share) (key : Bytes) : Prop where
  long : ∀ e ∈ shares, key.length ≤ e.2.length
  sum : ∀ (b : Nat) (hb : b < key.length), combine shares b = ofByte key[b]

theorem shamirReconstruct_addUp {first : Share} {rest : List Share} {key : Bytes}
    (hnd : ((first :: rest).map Prod.fst).Nodup) (hfirst : first.2.length = key.length)
    (h : AddUp (first :: rest) key) : shamirReconstruct (first :: rest) = .ok key := by
  rw [shamirReconstruct_eq hnd (by rw [hfirst]; exact h.long), hfirst, Except.ok.injEq]
  refine List.ext_getElem (by rw [List.length_map, List.length_range]) (fun b hb hb' => ?_)
  rw [List.getElem_map, List.getElem_range, h.sum b hb', byteOfInt_toInt_eq_iff]

end WhisperNet
