import Mathlib.LinearAlgebra.Lagrange

/-!
# Interpolation at Zero

The constant term of a polynomial from enough of its values, over any field. A
polynomial is given by its list of coefficients and evaluated by the nested
scheme; the constant term comes back as the sum of the values, each weighted by
a product over the other points. The points are a list without repetition, and
the order of the list does not matter.

Fewer values say nothing about the constant term. With one value less than
there are coefficients, at points other than zero, every constant term goes
with one choice of the other coefficients.

## Main definitions

* `ofCoeffs`: The polynomial with these coefficients, the constant one first.
* `weightAtZero`: The weight of a point among others.

## Theorems

* `eval_ofCoeffs`: The nested scheme evaluates the polynomial.
* `degree_ofCoeffs_lt`: As many coefficients bound the degree.
* `sum_weights`: The constant term from as many values.
* `existsUnique_values`: The coefficients from as many values.
* `existsUnique_coeffs`: The other coefficients from a constant term and one
  value less.
-/

namespace WhisperNet

open Polynomial

variable {F : Type} [Field F]

/-- The polynomial with these coefficients, the constant one first. -/
noncomputable def ofCoeffs : List F → F[X]
  | [] => 0
  | c :: cs => C c + X * ofCoeffs cs

/-- Evaluating from the highest coefficient down. -/
theorem eval_ofCoeffs (cs : List F) (x : F) :
    cs.reverse.foldl (fun val c => val * x + c) 0 = (ofCoeffs cs).eval x := by
  rw [List.foldl_reverse]
  induction cs with
  | nil => rw [List.foldr_nil, ofCoeffs, eval_zero]
  | cons c cs ih =>
      rw [List.foldr_cons, ih, ofCoeffs, eval_add, eval_C, eval_mul, eval_X]
      ring

theorem eval_ofCoeffs_cons (c : F) (cs : List F) (x : F) :
    (ofCoeffs (c :: cs)).eval x = c + x * (ofCoeffs cs).eval x := by
  rw [ofCoeffs, eval_add, eval_C, eval_mul, eval_X]

theorem eval_zero_ofCoeffs (c : F) (cs : List F) : (ofCoeffs (c :: cs)).eval 0 = c := by
  rw [eval_ofCoeffs_cons, zero_mul, add_zero]

theorem coeff_ofCoeffs (cs : List F) (i : Nat) : (ofCoeffs cs).coeff i = cs.getD i 0 := by
  induction cs generalizing i with
  | nil => rw [ofCoeffs, coeff_zero, List.getD_nil]
  | cons c cs ih =>
      rw [ofCoeffs, coeff_add]
      cases i with
      | zero => rw [coeff_C_zero, coeff_X_mul_zero, add_zero, List.getD_cons_zero]
      | succ i => rw [coeff_C_succ, coeff_X_mul, zero_add, ih, List.getD_cons_succ]

theorem degree_ofCoeffs_lt (cs : List F) : (ofCoeffs cs).degree < cs.length := by
  induction cs with
  | nil =>
      rw [ofCoeffs, degree_zero]
      exact WithBot.bot_lt_coe _
  | cons c cs ih =>
      rw [ofCoeffs, List.length_cons]
      refine lt_of_le_of_lt (degree_add_le _ _) (max_lt ?_ ?_)
      · exact lt_of_le_of_lt degree_C_le (by exact_mod_cast Nat.succ_pos _)
      · by_cases hzero : ofCoeffs cs = 0
        · rw [hzero, mul_zero, degree_zero]
          exact WithBot.bot_lt_coe _
        · rw [degree_eq_natDegree hzero] at ih
          have hlt : (ofCoeffs cs).natDegree < cs.length := by exact_mod_cast ih
          have hX : X * ofCoeffs cs ≠ 0 := mul_ne_zero X_ne_zero hzero
          have hnat : (X * ofCoeffs cs).natDegree < cs.length + 1 := by
            rw [natDegree_mul X_ne_zero hzero, natDegree_X]
            omega
          rw [degree_eq_natDegree hX]
          exact_mod_cast hnat

/-- The polynomials of low degree, by their coefficients. -/
theorem ofCoeffs_degreeLT {k : Nat} (cs : Fin k → F) :
    ofCoeffs (List.ofFn cs) = ((degreeLTEquiv F k).symm cs : F[X]) := by
  have hmem : ofCoeffs (List.ofFn cs) ∈ degreeLT F k := by
    rw [mem_degreeLT]
    have h := degree_ofCoeffs_lt (List.ofFn cs)
    rwa [List.length_ofFn] at h
  have heq : degreeLTEquiv F k ⟨ofCoeffs (List.ofFn cs), hmem⟩ = cs := by
    funext j
    change (ofCoeffs (List.ofFn cs)).coeff j = cs j
    rw [coeff_ofCoeffs, List.getD_eq_getElem?_getD, List.getElem?_ofFn, dif_pos j.isLt]
    rfl
  exact congrArg Subtype.val ((LinearEquiv.eq_symm_apply _).mpr heq)

variable [DecidableEq F]

/-- The product over the other points `y` of `y / (y - x)`. -/
def weightAtZero (xs : List F) (x : F) : F :=
  ((xs.filter (fun y => y ≠ x)).map (fun y => y * (y - x)⁻¹)).prod

/-- The constant term is the weighted sum of the values. -/
theorem sum_weights (xs : List F) (hxs : xs.Nodup) (p : F[X]) (hp : p.degree < xs.length) :
    (xs.map (fun x => p.eval x * weightAtZero xs x)).sum = p.eval 0 := by
  have hcard : xs.toFinset.card = xs.length := List.toFinset_card_of_nodup hxs
  have hinter := Lagrange.eq_interpolate (s := xs.toFinset) (v := id) (f := p)
    Function.injective_id.injOn (by rw [hcard]; exact hp)
  have hweight : ∀ x, (Lagrange.basis xs.toFinset id x).eval 0 = weightAtZero xs x := by
    intro x
    have hothers : xs.toFinset.erase x = (xs.filter (fun y => y ≠ x)).toFinset := by
      ext y
      simp only [Finset.mem_erase, List.mem_toFinset, List.mem_filter, decide_eq_true_eq, ne_eq]
      exact and_comm
    unfold weightAtZero
    rw [Lagrange.basis, eval_prod, hothers, List.prod_toFinset _ (hxs.filter _)]
    refine congrArg List.prod (List.map_congr_left (fun y hy => ?_))
    have hne : y ≠ x := of_decide_eq_true (List.mem_filter.mp hy).2
    -- Both factors change their sign.
    rw [Lagrange.basisDivisor, eval_mul, eval_C, eval_sub, eval_X, eval_C, id, id, zero_sub,
      ← neg_sub y x, inv_neg, neg_mul_neg, mul_comm]
  have hsum : p.eval 0 = (Lagrange.interpolate xs.toFinset id (fun x => p.eval x)).eval 0 :=
    congrArg (eval 0) hinter
  rw [hsum, Lagrange.interpolate_apply, eval_finsetSum, List.sum_toFinset _ hxs]
  refine congrArg List.sum (List.map_congr_left (fun x _ => ?_))
  rw [eval_mul, eval_C, hweight]

/-! ## Counting the choices -/

/-- With as many coefficients as points, one polynomial takes the values. -/
theorem existsUnique_values (s : Finset F) {k : Nat} (hk : s.card = k) (v : F → F) :
    ∃! cs : Fin k → F, ∀ x ∈ s, (ofCoeffs (List.ofFn cs)).eval x = v x := by
  subst hk
  have hinj : Set.InjOn id (s : Set F) := Function.injective_id.injOn
  obtain ⟨e, he⟩ : ∃ e : (Fin s.card → F) ≃ (s → F), ∀ cs (x : s),
      e cs x = (ofCoeffs (List.ofFn cs)).eval x.1 := by
    refine ⟨((degreeLTEquiv F s.card).symm.trans (Lagrange.funEquivDegreeLT hinj)).toEquiv,
      fun cs x => ?_⟩
    rw [ofCoeffs_degreeLT]
    rfl
  refine ⟨e.symm (fun x => v x.1), fun x hx => ?_, fun cs hcs => ?_⟩
  · have h := congrFun (e.apply_symm_apply (fun x : s => v x.1)) ⟨x, hx⟩
    rw [he] at h
    exact h
  · refine e.injective (funext (fun x => ?_))
    rw [e.apply_symm_apply, he]
    exact hcs x.1 x.2

/-- Points other than zero and a constant term leave one choice of the other
    coefficients, as many as there are points. -/
theorem existsUnique_coeffs (s : Finset F) {k : Nat} (hk : s.card = k) (hs : (0 : F) ∉ s) (c : F)
    (v : F → F) : ∃! cs : Fin k → F, ∀ x ∈ s, (ofCoeffs (c :: List.ofFn cs)).eval x = v x := by
  have hiff : ∀ cs : Fin k → F,
      (∀ x ∈ s, (ofCoeffs (c :: List.ofFn cs)).eval x = v x) ↔
        ∀ x ∈ s, (ofCoeffs (List.ofFn cs)).eval x = x⁻¹ * (v x - c) := by
    intro cs
    refine forall₂_congr (fun x hx => ?_)
    have hx0 : x ≠ 0 := fun hc => hs (hc ▸ hx)
    rw [eval_ofCoeffs_cons, eq_inv_mul_iff_mul_eq₀ hx0, eq_sub_iff_add_eq, add_comm]
  simp only [hiff]
  exact existsUnique_values s hk _

end WhisperNet
