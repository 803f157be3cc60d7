import WhisperNet.Crypto.Wrap
import WhisperNet.Lib.Interpolation

/-!
# Recovering a Shared Secret

The integer arithmetic of the secret sharing is the arithmetic of the field of
bytes, as long as it stays on bytes. Every share of a split is then the value
of a polynomial at a point other than zero, and the reconstruction is
interpolation at zero. Any `t` shares with different coordinates give the
secret back, and so do more than `t`.

## Main definitions

* `secretPoly`: The polynomial of one byte of the secret.

## Theorems

* `gfEval_wrap`: Horner's rule at any integer.
* `mem_split`: The shares of a split, in field terms.
* `weight_eq`, `combine_of_holds`: What values of a polynomial add up to.
* `combine_of_one_wrong`: One wrong value is enough to miss the constant.
* `addUp_of_holds`, `reconstruct_of_holds`: The secret from the values of its
  polynomials.
* `shamir_reconstruct_split`: The secret from enough shares.
-/

namespace WhisperNet

open Polynomial

open GF256

/-- Horner's rule at any integer is evaluation at its low byte. -/
theorem gfEval_wrap (cs : List GF256) (x : Int) :
    gfEval (cs.map toInt) x = ((ofCoeffs cs).eval (wrap x)).toInt := by
  have hfold : ∀ (ds : List GF256) (v : GF256),
      (ds.map toInt).foldl (fun val c => Int.xor (gfMul val x) c) v.toInt =
        (ds.foldl (fun val c => val * wrap x + c) v).toInt := by
    intro ds
    induction ds with
    | nil => exact fun _ => rfl
    | cons d ds ih =>
        intro v
        rw [List.map_cons, List.foldl_cons, List.foldl_cons, gfMul_wrap, xor_toInt, ih]
  rw [← eval_ofCoeffs, gfEval, ← List.map_reverse]
  exact hfold cs.reverse 0

/-! ## Shares -/

/-- The polynomial of one byte of the secret. -/
noncomputable def secretPoly (t : Nat) (rand : Nat → UInt8) (byte : UInt8) : GF256[X] :=
  ofCoeffs (ofByte byte :: (List.range (t - 1)).map (fun j => ofByte (rand j)))

theorem degree_secretPoly (t : Nat) (ht : 1 ≤ t) (rand : Nat → UInt8) (byte : UInt8) :
    (secretPoly t rand byte).degree < t := by
  have h := degree_ofCoeffs_lt (ofByte byte :: (List.range (t - 1)).map (fun j => ofByte (rand j)))
  have hlen : (ofByte byte :: (List.range (t - 1)).map (fun j => ofByte (rand j))).length = t := by
    rw [List.length_cons, List.length_map, List.length_range]
    omega
  rw [hlen] at h
  exact h

theorem gfEval_shamirCoeffs (t : Nat) (rand : Nat → UInt8) (byte : UInt8) (x : Int) :
    gfEval (shamirCoeffs t rand byte) x = ((secretPoly t rand byte).eval (wrap x)).toInt := by
  have hcoeffs : shamirCoeffs t rand byte =
      (ofByte byte :: (List.range (t - 1)).map (fun j => ofByte (rand j))).map toInt := by
    rw [List.map_cons, List.map_map]
    rfl
  rw [hcoeffs, gfEval_wrap]
  rfl

/-- The point of a share. -/
def point (e : Share) : GF256 := ofInt e.1

/-- The shares hold, byte by byte, the values of some polynomials at their
    points. -/
structure Holds (shares : List Share) (polys : List GF256[X]) : Prop where
  coordinate : ∀ e ∈ shares, (point e).toInt = e.1
  length : ∀ e ∈ shares, e.2.length = polys.length
  value : ∀ e ∈ shares, ∀ (b : Nat) (p : GF256[X]), polys[b]? = some p →
    ∃ y, e.2[b]? = some y ∧ ofByte y = p.eval (point e)

/-- The polynomials of a secret. -/
noncomputable def secretPolys (secret : Bytes) (t : Nat) (rand : Nat → Nat → UInt8) :
    List GF256[X] :=
  secret.zipIdx.map (fun e => secretPoly t (rand e.2) e.1)

theorem mem_split {secret : Bytes} {n t : Nat} {rand : Nat → Nat → UInt8} (hn : n ≤ 255)
    {shares : List Share} (h : ∀ e ∈ shares, e ∈ shamirSplit secret n t rand) :
    Holds shares (secretPolys secret t rand) := by
  have hshare : ∀ e ∈ shares, ∃ i : Nat, i < n ∧ e = ((i + 1 : Int), secret.zipIdx.map (fun c =>
      byteOfInt (gfEval (shamirCoeffs t (rand c.2) c.1) (i + 1)))) := by
    intro e he
    rcases List.mem_map.mp (h e he) with ⟨i, hi, hie⟩
    exact ⟨i, List.mem_range.mp hi, hie.symm⟩
  have hcoord : ∀ e ∈ shares, (point e).toInt = e.1 := by
    intro e he
    rcases hshare e he with ⟨i, hi, hie⟩
    rw [point, hie]
    exact toInt_ofInt _ (by omega) (by omega)
  refine ⟨hcoord, fun e he => ?_, fun e he b p hp => ?_⟩
  · rcases hshare e he with ⟨i, hi, hie⟩
    rw [hie, secretPolys, List.length_map, List.length_map]
  · have hpoint := hcoord e he
    rcases hshare e he with ⟨i, hi, hie⟩
    rw [secretPolys, List.getElem?_map, Option.map_eq_some_iff] at hp
    rcases hp with ⟨c, hc, hpc⟩
    refine ⟨byteOfInt (gfEval (shamirCoeffs t (rand c.2) c.1) (i + 1)), ?_, ?_⟩
    · rw [hie, List.getElem?_map, hc]
      rfl
    · have hx : (i + 1 : Int) = (point e).toInt := by rw [hpoint, hie]
      rw [hx, gfEval_shamirCoeffs, wrap_toInt, ofByte_byteOfInt, ← hpc]

/-! ## The loops of the reconstruction -/

/-- With different points, the places of two shares are the same as soon as
    their points are. -/
theorem place_eq_iff {shares : List Share} (hnd : (shares.map point).Nodup) {i j : Nat}
    {e d : Share} (he : shares[i]? = some e) (hd : shares[j]? = some d) :
    i = j ↔ point d = point e := by
  constructor
  · intro hij
    rw [hij, hd, Option.some.injEq] at he
    rw [he]
  · intro hpoint
    have hi : (shares.map point)[i]? = some (point e) := by rw [List.getElem?_map, he]; rfl
    have hj : (shares.map point)[j]? = some (point d) := by rw [List.getElem?_map, hd]; rfl
    have hlt : i < (shares.map point).length := (List.getElem?_eq_some_iff.mp hi).1
    exact (List.getElem?_inj hlt hnd).mp (by rw [hi, hj, hpoint])

/-- A map over numbered shares that does not read the numbers. -/
theorem map_zipIdx_share {α : Type} (shares : List Share) (f : Share → α) :
    shares.zipIdx.map (fun d => f d.1) = shares.map f := by
  conv_rhs => rw [← List.zipIdx_map_fst 0 shares]
  rw [List.map_map]
  rfl

/-- Where the coordinates are bytes, the coefficient of a place is that of its
    point. -/
theorem weight_eq {shares : List Share} (hcoord : ∀ e ∈ shares, (point e).toInt = e.1)
    (hnd : (shares.map point).Nodup) {i : Nat} {e : Share} (he : shares[i]? = some e) :
    weight shares i e.1 = weightAtZero (shares.map point) (point e) := by
  have hwrap : ∀ d ∈ shares, wrap d.1 = point d := by
    intro d hd
    rw [← hcoord d hd, wrap_toInt]
  have hplaces : shares.zipIdx.filter (fun d => d.2 ≠ i) =
      shares.zipIdx.filter (fun d => point d.1 ≠ point e) := by
    refine List.filter_congr (fun d hd => ?_)
    have hplace := place_eq_iff hnd he (List.mem_zipIdx_iff_getElem?.mp hd)
    exact decide_eq_decide.mpr (not_congr (eq_comm.trans hplace))
  have hpoints : (shares.map point).filter (fun y => y ≠ point e) =
      (shares.zipIdx.filter (fun d => point d.1 ≠ point e)).map (fun d => point d.1) := by
    rw [← map_zipIdx_share, List.filter_map]
    rfl
  unfold weight weightAtZero
  rw [hplaces, hpoints, List.map_map]
  refine congrArg List.prod (List.map_congr_left (fun d hd => ?_))
  have hmem := List.mem_of_getElem? (List.mem_zipIdx_iff_getElem?.mp (List.mem_filter.mp hd).1)
  rw [Function.comp_apply, hwrap d.1 hmem, hwrap e (List.mem_of_getElem? he), sub_eq_add',
    add_comm (point e)]

/-- Where the points are different, the shares add up by their points. -/
theorem combine_eq {shares : List Share} (hcoord : ∀ e ∈ shares, (point e).toInt = e.1)
    (hnd : (shares.map point).Nodup) (b : Nat) :
    combine shares b = (shares.map (fun e =>
      ofByte (e.2.getD b 0) * weightAtZero (shares.map point) (point e))).sum := by
  rw [← map_zipIdx_share, combine]
  refine congrArg List.sum (List.map_congr_left (fun d hd => ?_))
  rw [weight_eq hcoord hnd (List.mem_zipIdx_iff_getElem?.mp hd)]

theorem sum_points {shares : List Share} (hnd : (shares.map point).Nodup) {p : GF256[X]}
    (hdeg : p.degree < shares.length) :
    (shares.map (fun e => p.eval (point e) * weightAtZero (shares.map point) (point e))).sum =
      p.eval 0 := by
  have hsum := sum_weights (shares.map point) hnd p (by rw [List.length_map]; exact hdeg)
  rw [List.map_map] at hsum
  exact hsum

/-- Values of a polynomial of low degree add up to its constant. -/
theorem combine_of_holds {shares : List Share} {polys : List GF256[X]}
    (h : Holds shares polys) (hnd : (shares.map point).Nodup) {b : Nat} {p : GF256[X]}
    (hp : polys[b]? = some p) (hdeg : p.degree < shares.length) :
    combine shares b = p.eval 0 := by
  rw [combine_eq h.coordinate hnd, ← sum_points hnd hdeg]
  refine congrArg List.sum (List.map_congr_left (fun e he => ?_))
  rcases h.value e he b p hp with ⟨y, hy, hval⟩
  rw [List.getD_eq_getElem?_getD, hy, Option.getD_some, hval]

/-- One value that is wrong cannot go unnoticed: its coefficient is not zero. -/
theorem combine_of_one_wrong {shares : List Share}
    (hcoord : ∀ e ∈ shares, (point e).toInt = e.1) (hnd : (shares.map point).Nodup)
    (hpos : ∀ e ∈ shares, point e ≠ 0) {b : Nat} {p : GF256[X]} (hdeg : p.degree < shares.length)
    {bad : Share} (hbad : bad ∈ shares) (hwrong : ofByte (bad.2.getD b 0) ≠ p.eval (point bad))
    (hrest : ∀ e ∈ shares, e ≠ bad → ofByte (e.2.getD b 0) = p.eval (point e)) :
    combine shares b ≠ p.eval 0 := by
  have hweight : weightAtZero (shares.map point) (point bad) ≠ 0 := by
    refine List.prod_ne_zero (fun hzero => ?_)
    rcases List.mem_map.mp hzero with ⟨y, hy, hyz⟩
    rcases List.mem_filter.mp hy with ⟨hmem, hne⟩
    rcases List.mem_map.mp hmem with ⟨e, he, hey⟩
    rcases mul_eq_zero.mp hyz with hc | hc
    · exact hpos e he (hey.trans hc)
    · exact of_decide_eq_true hne (sub_eq_zero.mp (inv_eq_zero.mp hc))
  rw [combine_eq hcoord hnd, ← sum_points hnd hdeg]
  rcases List.append_of_mem hbad with ⟨before, after, hsplit⟩
  have hshares : shares.Nodup := hnd.of_map
  rw [hsplit, List.nodup_middle, List.nodup_cons, List.mem_append, not_or] at hshares
  -- On both sides of the wrong share the summands agree.
  have hsame : ∀ part : List Share, (∀ e ∈ part, e ∈ shares ∧ e ≠ bad) →
      part.map (fun e => ofByte (e.2.getD b 0) * weightAtZero (shares.map point) (point e)) =
        part.map (fun e => p.eval (point e) * weightAtZero (shares.map point) (point e)) := by
    intro part hpart
    refine List.map_congr_left (fun e he => ?_)
    rw [hrest e (hpart e he).1 (hpart e he).2]
  have hbefore := hsame before (fun e he => ⟨by
    rw [hsplit]
    exact List.mem_append_left _ he, fun hc => hshares.1.1 (hc ▸ he)⟩)
  have hafter := hsame after (fun e he => ⟨by
    rw [hsplit]
    exact List.mem_append_right _ (List.mem_cons_of_mem _ he), fun hc => hshares.1.2 (hc ▸ he)⟩)
  intro hc
  have hsplit' : ∀ f : Share → GF256, (shares.map f).sum =
      (before.map f).sum + (f bad + (after.map f).sum) := by
    intro f
    rw [hsplit, List.map_append, List.sum_append, List.map_cons, List.sum_cons]
  rw [hsplit', hsplit', hbefore, hafter] at hc
  exact hwrong (mul_right_cancel₀ hweight (add_right_cancel (add_left_cancel hc)))

/-- Shares of polynomials of low degree whose constants are the secret add up to
    it. -/
theorem addUp_of_holds {shares : List Share} {polys : List GF256[X]} {secret : Bytes}
    (h : Holds shares polys) (hnd : (shares.map Prod.fst).Nodup)
    (hlen : polys.length = secret.length)
    (hpoly : ∀ (b : Nat) (hb : b < secret.length), ∃ p, polys[b]? = some p ∧
      p.degree < shares.length ∧ p.eval 0 = ofByte secret[b]) : AddUp shares secret where
  long e he := by rw [h.length e he, hlen]
  sum b hb := by
    have hpoints : (shares.map point).Nodup := by
      have hcoords : shares.map Prod.fst = (shares.map point).map toInt := by
        rw [List.map_map]
        exact List.map_congr_left (fun e he => (h.coordinate e he).symm)
      exact (hcoords ▸ hnd).of_map
    rcases hpoly b hb with ⟨p, hp, hdeg, hconst⟩
    rw [combine_of_holds h hpoints hp hdeg, hconst]

/-- So they give the secret back. -/
theorem reconstruct_of_holds {shares : List Share} {polys : List GF256[X]} {secret : Bytes}
    (h : Holds shares polys) (hnd : (shares.map Prod.fst).Nodup) (hne : shares ≠ [])
    (hlen : polys.length = secret.length)
    (hpoly : ∀ (b : Nat) (hb : b < secret.length), ∃ p, polys[b]? = some p ∧
      p.degree < shares.length ∧ p.eval 0 = ofByte secret[b]) :
    shamirReconstruct shares = .ok secret := by
  cases shares with
  | nil => exact absurd rfl hne
  | cons first rest =>
      have hfirst : first.2.length = secret.length := by
        rw [h.length first (List.mem_cons_self ..), hlen]
      exact shamirReconstruct_addUp hnd hfirst (addUp_of_holds h hnd hlen hpoly)

theorem length_secretPolys (secret : Bytes) (t : Nat) (rand : Nat → Nat → UInt8) :
    (secretPolys secret t rand).length = secret.length := by
  rw [secretPolys, List.length_map, List.length_zipIdx]

/-- The polynomial of each byte has a degree below the threshold and the byte
    as its constant. -/
theorem secretPolys_spec (secret : Bytes) {t k : Nat} (rand : Nat → Nat → UInt8) (ht : 1 ≤ t)
    (hk : t ≤ k) (b : Nat) (hb : b < secret.length) :
    ∃ p, (secretPolys secret t rand)[b]? = some p ∧ p.degree < k ∧
      p.eval 0 = ofByte secret[b] := by
  refine ⟨secretPoly t (rand b) secret[b], ?_, ?_, eval_zero_ofCoeffs _ _⟩
  · rw [secretPolys, List.getElem?_map, List.getElem?_zipIdx, List.getElem?_eq_getElem hb]
    simp only [Option.map_some, Nat.zero_add]
  · exact lt_of_lt_of_le (degree_secretPoly t ht _ _) (by exact_mod_cast hk)

/-- Any `t` or more shares of a split with different coordinates, in any order,
    give the secret back. -/
theorem shamir_reconstruct_split (secret : Bytes) (n t : Nat) (rand : Nat → Nat → UInt8)
    (ht : 1 ≤ t) (hn : n ≤ 255) (shares : List Share)
    (hmem : ∀ e ∈ shares, e ∈ shamirSplit secret n t rand)
    (hnd : (shares.map Prod.fst).Nodup) (hk : t ≤ shares.length) :
    shamirReconstruct shares = .ok secret := by
  have hne : shares ≠ [] := by
    intro hnil
    rw [hnil, List.length_nil] at hk
    omega
  exact reconstruct_of_holds (mem_split hn hmem) hnd hne (length_secretPolys secret t rand)
    (secretPolys_spec secret rand ht hk)

/-- Two of three shares of one byte, the later one first. -/
theorem shamir_reconstruct_two_of_three :
    shamirReconstruct [(3, [0x42 ^^^ 0x1d]), (1, [0x42 ^^^ 0x0b])] = .ok [0x42] :=
  shamir_reconstruct_split [0x42] 3 2 (fun _ _ => 0x0b) (by decide) (by decide) _
    (by decide +kernel) (by decide) (by decide)

end WhisperNet
