import Mathlib.Algebra.BigOperators.Intervals
import Mathlib.Algebra.BigOperators.Ring.Finset
import Mathlib.Algebra.Order.BigOperators.Group.List
import Mathlib.Logic.Relation

/-!
# Branching with a Falling Rank

A population where one member at a time is replaced by a bounded number of
children, each of a rank one less than its own and never of rank zero. A child
inherits the mark of its parent, so the marks say who descends from whom.

Descent is bounded by a potential. A member of rank `h` has at most
`b + b ^ 2 + ... + b ^ (h - 1)` descendants, and the number born so far plus
the number that can still be born never grows. Nothing is assumed of which
member is replaced or of how many children it has, up to the bound.

## Main definitions

* `descendants`: How many a member of some rank can have.
* `Population`: The members alive, and the marks of those born.
* `Population.Step`: One member is replaced by its children.
* `Population.potential`: The births that marks of a kind can still cause.
* `born`: The births that carried a mark of a kind.

## Theorems

* `descendants_eq`: The bound as a sum of powers.
* `step_potential`: A step does not raise births plus potential.
* `born_le`: Over any number of steps, births are bounded by the potential.
* `eventually_const`: A bounded count that never falls stands still at last.
-/

namespace WhisperNet

namespace Branching

/-- How many descendants a member of a rank can have: members of rank zero and
    one have no children. -/
def descendants (b : Nat) : Nat → Nat
  | 0 => 0
  | 1 => 0
  | h + 2 => b * (1 + descendants b (h + 1))

theorem descendants_eq (b h : Nat) : descendants b h = ∑ k ∈ Finset.Ico 1 h, b ^ k := by
  induction h with
  | zero => rfl
  | succ h ih =>
      cases h with
      | zero => rfl
      | succ h =>
          have hshift : ∑ k ∈ Finset.Ico 1 (h + 2), b ^ k =
              ∑ k ∈ Finset.Ico 0 (h + 1), b ^ (k + 1) :=
            (Finset.sum_Ico_add' (fun k => b ^ k) 0 (h + 1) 1).symm
          have hhead : ∑ k ∈ Finset.Ico 0 (h + 1), b ^ (k + 1) =
              b * ∑ k ∈ Finset.Ico 0 (h + 1), b ^ k := by
            rw [Finset.mul_sum]
            exact Finset.sum_congr rfl (fun k _ => by rw [pow_succ, Nat.mul_comm])
          rw [descendants, ih, hshift, hhead, Finset.sum_eq_sum_Ico_succ_bot (Nat.succ_pos h),
            pow_zero]

/-- The members alive, each with its mark and rank, and the marks of those born,
    in order. -/
structure Population (τ : Type) where
  alive : List (τ × Nat)
  births : List τ

variable {τ : Type}

/-- One member is replaced by at most `b` children. -/
def Population.Step (b : Nat) (c c' : Population τ) : Prop :=
  ∃ l₁ x l₂ kids, c.alive = l₁ ++ x :: l₂ ∧ c'.alive = l₁ ++ l₂ ++ kids ∧ kids.length ≤ b ∧
    (∀ k ∈ kids, k.1 = x.1 ∧ 1 ≤ k.2 ∧ k.2 + 1 = x.2) ∧
    c'.births = c.births ++ kids.map Prod.fst

/-- How many births the members with marks of a kind can still cause. -/
def potential (b : Nat) (p : τ → Bool) (alive : List (τ × Nat)) : Nat :=
  (alive.map (fun x => if p x.1 then descendants b x.2 else 0)).sum

/-- How many of those born have marks of a kind. -/
def born (p : τ → Bool) (births : List τ) : Nat := births.countP p

theorem potential_append (b : Nat) (p : τ → Bool) (l l' : List (τ × Nat)) :
    potential b p (l ++ l') = potential b p l + potential b p l' := by
  unfold potential
  rw [List.map_append, List.sum_append]

/-- What the children of a member use up is at most what it had. -/
theorem kids_le (b : Nat) (p : τ → Bool) (x : τ × Nat) (kids : List (τ × Nat))
    (hlen : kids.length ≤ b) (hkids : ∀ k ∈ kids, k.1 = x.1 ∧ 1 ≤ k.2 ∧ k.2 + 1 = x.2) :
    born p (kids.map Prod.fst) + potential b p kids ≤ potential b p [x] := by
  cases hp : p x.1 with
  | false =>
      have hnone : ∀ k ∈ kids, p k.1 = false := fun k hk => by rw [(hkids k hk).1, hp]
      have hborn : born p (kids.map Prod.fst) = 0 := by
        unfold born
        rw [List.countP_eq_zero]
        intro m hm
        rcases List.mem_map.mp hm with ⟨k, hk, hkm⟩
        rw [← hkm, hnone k hk]
        exact Bool.false_ne_true
      have hzero : potential b p kids = 0 := by
        unfold potential
        refine List.sum_eq_zero (fun v hv => ?_)
        rcases List.mem_map.mp hv with ⟨k, hk, hkv⟩
        rw [← hkv, hnone k hk, if_neg Bool.false_ne_true]
      omega
  | true =>
      -- Every child counts once for itself and once for its own descendants.
      have hchild : ∀ l : List (τ × Nat), (∀ k ∈ l, k.1 = x.1 ∧ 1 ≤ k.2 ∧ k.2 + 1 = x.2) →
          born p (l.map Prod.fst) + potential b p l =
            l.length * (1 + descendants b (x.2 - 1)) := by
        intro l
        induction l with
        | nil => exact fun _ => by simp only [List.map_nil, List.length_nil, Nat.zero_mul]; rfl
        | cons k l ih =>
            intro hl
            have hk := hl k (List.mem_cons_self ..)
            have hrest := ih (fun k' hk' => hl k' (List.mem_cons_of_mem _ hk'))
            have hrank : k.2 = x.2 - 1 := by omega
            unfold born potential at hrest ⊢
            rw [List.map_cons, List.countP_cons_of_pos (by rw [hk.1]; exact hp), List.map_cons,
              List.sum_cons, if_pos (by rw [hk.1]; exact hp), hrank, List.length_cons,
              Nat.succ_mul]
            omega
      have hx : potential b p [x] = descendants b x.2 := by
        simp only [potential, List.map_cons, List.map_nil, List.sum_cons, List.sum_nil, hp,
          if_true, Nat.add_zero]
      rw [hchild kids hkids, hx]
      cases kids with
      | nil => simp only [List.length_nil, Nat.zero_mul, Nat.zero_le]
      | cons k kids =>
          obtain ⟨h, hh⟩ : ∃ h, x.2 = h + 2 := by
            have hk := hkids k (List.mem_cons_self ..)
            exact ⟨x.2 - 2, by omega⟩
          rw [hh]
          exact Nat.mul_le_mul_right _ hlen

/-- A step does not raise births plus potential. -/
theorem step_potential {b : Nat} {c c' : Population τ} (h : c.Step b c') (p : τ → Bool) :
    born p c'.births + potential b p c'.alive ≤ born p c.births + potential b p c.alive := by
  rcases h with ⟨l₁, x, l₂, kids, hc, hc', hlen, hkids, hbirths⟩
  have hle := kids_le b p x kids hlen hkids
  have hsplit : potential b p (l₁ ++ x :: l₂) =
      potential b p l₁ + (potential b p [x] + potential b p l₂) := by
    rw [potential_append, show x :: l₂ = [x] ++ l₂ from rfl, potential_append]
  have hborn : born p c'.births = born p c.births + born p (kids.map Prod.fst) := by
    unfold born
    rw [hbirths, List.countP_append]
  rw [hc, hc', hsplit, potential_append, potential_append, hborn]
  omega

/-- Over any number of steps, the births of a kind are bounded by the potential
    that kind had. -/
theorem born_le {b : Nat} {c c' : Population τ} (h : Relation.ReflTransGen (Population.Step b) c c')
    (p : τ → Bool) :
    born p c'.births + potential b p c'.alive ≤ born p c.births + potential b p c.alive := by
  induction h with
  | refl => exact Nat.le_refl _
  | tail _ hstep ih => exact (step_potential hstep p).trans ih

/-- A count that never falls and stays below a bound stands still at last. -/
theorem eventually_const (f : Nat → Nat) (bound : Nat) (hmono : ∀ n, f n ≤ f (n + 1))
    (hbound : ∀ n, f n ≤ bound) : ∃ N, ∀ n ≥ N, f n = f N := by
  have hle : Monotone f := monotone_nat_of_le_succ hmono
  by_contra hnot
  simp only [not_exists, not_forall] at hnot
  -- From every point on the count rises again, so it passes any value.
  have hrise : ∀ v, ∃ n, v ≤ f n := by
    intro v
    induction v with
    | zero => exact ⟨0, Nat.zero_le _⟩
    | succ v ih =>
        rcases ih with ⟨n, hn⟩
        rcases hnot n with ⟨m, hm, hne⟩
        have hmn := hle hm
        exact ⟨m, by omega⟩
  rcases hrise (bound + 1) with ⟨n, hn⟩
  have := hbound n
  omega

end Branching

end WhisperNet
