import Mathlib.Probability.Distributions.Uniform
import WhisperNet.Crypto.Recovery

/-!
# What Fewer Shares Say

One share less than the threshold says nothing about the secret. The polynomial
of a byte has the byte as its constant term and `t - 1` random coefficients, and
the shares are its values at points other than zero. So for every byte that the
secret might be there is exactly one choice of the coefficients behind any
`t - 1` shares, whatever their values. When the coefficients are uniform, the
shares are as likely under one secret as under any other, and any values of
them are as likely as any others.

## Main definitions

* `byteEquiv`: The bytes a coefficient is drawn from, as field elements.
* `drawn`: The coefficients of a split, from a choice of them.
* `Yields`: A choice of the coefficients gives some shares their values.

## Theorems

* `mem_split_byte`: A share of one byte, in field terms.
* `yields_iff`: What a choice of coefficients has to do.
* `shamir_secrecy`: One choice for every secret.
-/

namespace WhisperNet

open Polynomial GF256

/-- `randbelow(256)` as field elements. -/
def byteEquiv : Fin 256 ≃ GF256 where
  toFun c := ofByte (UInt8.ofFin c)
  invFun a := a.bits.toFin
  left_inv _ := rfl
  right_inv _ := rfl

/-- The coefficients of the split of one byte, from a choice of `m` of them. -/
def drawn {m : Nat} (coeffs : Fin m → Fin 256) (j : Nat) : UInt8 :=
  if h : j < m then UInt8.ofFin (coeffs ⟨j, h⟩) else 0

/-- With these coefficients, the shares of the byte `s` at the coordinates `X`
    are the bytes `v`. -/
def Yields (n t : Nat) (s : UInt8) (coeffs : Fin (t - 1) → Fin 256) (X : Finset Nat)
    (v : Nat → UInt8) : Prop :=
  ∀ x ∈ X, ((x : Int), [v x]) ∈ shamirSplit [s] n t (fun _ => drawn coeffs)

/-- The polynomial of a byte by the choice of its coefficients. -/
theorem secretPoly_drawn (t : Nat) (s : UInt8) (coeffs : Fin (t - 1) → Fin 256) :
    secretPoly t (drawn coeffs) s =
      ofCoeffs (ofByte s :: List.ofFn (fun j => byteEquiv (coeffs j))) := by
  have hlist : (List.range (t - 1)).map (fun j => ofByte (drawn coeffs j)) =
      List.ofFn (fun j => byteEquiv (coeffs j)) := by
    refine List.ext_getElem (by rw [List.length_map, List.length_range, List.length_ofFn])
      (fun j hj hj' => ?_)
    rw [List.length_map, List.length_range] at hj
    rw [List.getElem_map, List.getElem_range, List.getElem_ofFn, drawn, dif_pos hj]
    rfl
  rw [secretPoly, hlist]

/-- A share of one byte is the value of its polynomial. -/
theorem mem_split_byte {n t x : Nat} (hx : 1 ≤ x) (hxn : x ≤ n) (hn : n ≤ 255) (s y : UInt8)
    (rand : Nat → UInt8) :
    ((x : Int), [y]) ∈ shamirSplit [s] n t (fun _ => rand) ↔
      (secretPoly t rand s).eval (ofInt x) = ofByte y := by
  have hpoint : (ofInt (x : Int)).toInt = x := toInt_ofInt _ (by omega) (by omega)
  have hvalue : byteOfInt (gfEval (shamirCoeffs t rand s) x) = y ↔
      (secretPoly t rand s).eval (ofInt x) = ofByte y := by
    rw [← hpoint, gfEval_shamirCoeffs, wrap_toInt, hpoint, byteOfInt_toInt_eq_iff]
  rw [← hvalue, shamirSplit, List.mem_map]
  constructor
  · rintro ⟨i, _, hie⟩
    rw [Prod.mk.injEq] at hie
    -- The coordinate tells which share it is.
    rw [← List.cons.inj hie.2 |>.1, ← hie.1]
  · intro hy
    refine ⟨x - 1, List.mem_range.mpr (by omega), ?_⟩
    have hcoord : ((x - 1 : Nat) : Int) + 1 = x := by omega
    rw [hcoord, Prod.mk.injEq]
    exact ⟨rfl, by rw [← hy]; rfl⟩

section Secrecy

variable {n t : Nat} {X : Finset Nat}

theorem ofInt_injOn (hn : n ≤ 255) (hX : ∀ x ∈ X, 1 ≤ x ∧ x ≤ n) :
    Set.InjOn (fun x : Nat => ofInt (x : Int)) X := by
  intro x hx y hy hxy
  have hxb := hX x hx
  have hyb := hX y hy
  have h := congrArg toInt hxy
  dsimp only at h
  rw [toInt_ofInt _ (by omega) (by omega), toInt_ofInt _ (by omega) (by omega)] at h
  omega

/-- The choices that yield some shares are those whose polynomial takes the
    values at the points of the field. -/
theorem yields_iff (hn : n ≤ 255) (hX : ∀ x ∈ X, 1 ≤ x ∧ x ≤ n) (s : UInt8)
    (coeffs : Fin (t - 1) → Fin 256) (v : Nat → UInt8) :
    Yields n t s coeffs X v ↔
      ∀ a ∈ X.image (fun x : Nat => ofInt (x : Int)),
        (ofCoeffs (ofByte s :: List.ofFn (fun j => byteEquiv (coeffs j)))).eval a =
          ofByte (v a.toInt.toNat) := by
  rw [Finset.forall_mem_image, Yields]
  refine forall₂_congr (fun x hx => ?_)
  have hb := hX x hx
  rw [mem_split_byte hb.1 hb.2 hn, secretPoly_drawn, toInt_ofInt _ (by omega) (by omega),
    Int.toNat_natCast]

/-- For any `t - 1` shares and any secret byte, exactly one choice of the random
    coefficients gives the shares their values. -/
theorem existsUnique_yields (hn : n ≤ 255) (hX : ∀ x ∈ X, 1 ≤ x ∧ x ≤ n) (hcard : X.card = t - 1)
    (v : Nat → UInt8) (s : UInt8) :
    ∃! coeffs : Fin (t - 1) → Fin 256, Yields n t s coeffs X v := by
  have hpoints : (X.image (fun x : Nat => ofInt (x : Int))).card = t - 1 := by
    rw [Finset.card_image_of_injOn (ofInt_injOn hn hX), hcard]
  have hzero : (0 : GF256) ∉ X.image (fun x : Nat => ofInt (x : Int)) := by
    intro hmem
    rcases Finset.mem_image.mp hmem with ⟨x, hx, hx0⟩
    have hb := hX x hx
    have h := congrArg toInt hx0
    rw [toInt_ofInt _ (by omega) (by omega)] at h
    have hz : (0 : GF256).toInt = 0 := rfl
    omega
  rcases existsUnique_coeffs _ hpoints hzero (ofByte s) (fun a => ofByte (v a.toInt.toNat)) with
    ⟨cs, hcs, huniq⟩
  refine ⟨fun j => byteEquiv.symm (cs j), ?_, fun coeffs hcoeffs => ?_⟩
  · refine (yields_iff hn hX s _ v).mpr (fun a ha => ?_)
    simp only [Equiv.apply_symm_apply]
    exact hcs a ha
  · have heq := huniq _ ((yields_iff hn hX s coeffs v).mp hcoeffs)
    funext j
    rw [← heq, Equiv.symm_apply_apply]

end Secrecy

/-- One share less than the threshold is as likely under every secret: any
    `t - 1` shares come about by exactly one choice of the random coefficients,
    so with uniform coefficients they have the same probability whatever the
    secret byte is. -/
theorem shamir_secrecy (n t : Nat) (hn : n ≤ 255) (X : Finset Nat)
    (hX : ∀ x ∈ X, 1 ≤ x ∧ x ≤ n) (hcard : X.card = t - 1) (v : Nat → UInt8) (s : UInt8) :
    (∃! coeffs : Fin (t - 1) → Fin 256, Yields n t s coeffs X v) ∧
      (PMF.uniformOfFintype (Fin (t - 1) → Fin 256)).toOuterMeasure
        {coeffs | Yields n t s coeffs X v} = ((256 : ENNReal) ^ (t - 1))⁻¹ := by
  have hone := existsUnique_yields hn hX hcard v s
  refine ⟨hone, ?_⟩
  rcases hone with ⟨coeffs, hcoeffs, huniq⟩
  have hset : {coeffs | Yields n t s coeffs X v} = {coeffs} :=
    Set.eq_singleton_iff_unique_mem.mpr ⟨hcoeffs, huniq⟩
  rw [hset, PMF.toOuterMeasure_apply_singleton, PMF.uniformOfFintype_apply, Fintype.card_fun,
    Fintype.card_fin, Fintype.card_fin, Nat.cast_pow]
  rfl

/-- The first and the last of four shares, of which three give the secret back. -/
theorem shamir_secrecy_three_of_four :
    (∃! coeffs : Fin 2 → Fin 256, Yields 4 3 0x42 coeffs {1, 4} (fun x => if x = 1 then 7 else 9)) ∧
      (PMF.uniformOfFintype (Fin 2 → Fin 256)).toOuterMeasure
        {coeffs | Yields 4 3 0x42 coeffs {1, 4} (fun x => if x = 1 then 7 else 9)} =
          ((256 : ENNReal) ^ 2)⁻¹ :=
  shamir_secrecy 4 3 (by decide) {1, 4} (by decide) rfl _ _

end WhisperNet
