import WhisperNet.Python.Value

/-!
# Arithmetic of Floats

Most of the arithmetic of this development is exact, as the program's decisions
seldom hang on the last bit of a number. Where they do, the result is rounded as
`double` does it, with the infinities and NaN.

An integer has no bound. It is converted where it meets a float, and divided by an
integer it gives a float, and both raise where there is none.

## Main definitions

* `PyFloat.add`, `PyFloat.div`: Arithmetic with infinities and NaN.
* `FloatSort`: The sort of a list by a float.
* `PyNum`: An integer or a float.
* `PyNum.sum`, `PyNum.mean`, `PyVal.minus`: Arithmetic that overflows.

## Theorems

* `PyNum.sum_ok`, `PyNum.mean_ok`: Integers that are not too large together.
-/

namespace WhisperNet

namespace PyFloat

/-- `x + y`. Infinities of both signs have no sum. -/
def add : PyFloat → PyFloat → PyFloat
  | .num p, .num q =>
    if PyVal.floatBound ≤ |p| then
      if PyVal.floatBound ≤ |q| ∧ (p < 0 ↔ 0 < q) then .nan else .num p
    else if PyVal.floatBound ≤ |q| then .num q
    else .num (double (p + q))
  | _, _ => .nan

/-- `-x`. -/
def neg : PyFloat → PyFloat
  | .num q => .num (-q)
  | .nan => .nan

/-- `x / n` for a number of things. -/
def div (x : PyFloat) (n : Nat) : PyFloat :=
  match x with
  | .num q => if PyVal.floatBound ≤ |q| then .num q else .num (double (q / n))
  | .nan => .nan

/-- `round(x, 2)`. -/
def round2 : PyFloat → PyFloat
  | .num q =>
    if PyVal.floatBound ≤ |q| then .num q else .num (double (roundHalfEven (q * 100) / 100))
  | .nan => .nan

/-- The number, if it is one. -/
def value : PyFloat → ℚ
  | .num q => q
  | .nan => 0

end PyFloat

/-- `list.sort` with a key that is a float. It is stable where no key is NaN. That is
    neither less than another number nor greater, and where such keys end up is left
    open. -/
structure FloatSort (α : Type) where
  sort : (α → PyFloat) → List α → List α
  perm : ∀ key xs, (sort key xs).Perm xs
  stable : ∀ key xs, (∀ x ∈ xs, key x ≠ .nan) →
    sort key xs = xs.insertionSort (fun x y => (key x).value ≤ (key y).value)

/-- A sort that takes NaN for zero. -/
def FloatSort.reference (α : Type) : FloatSort α where
  sort key xs := xs.insertionSort (fun x y => (key x).value ≤ (key y).value)
  perm _ xs := List.perm_insertionSort _ xs
  stable _ _ _ := rfl

/-- A number as arithmetic gives it. -/
inductive PyNum
  | int (n : Int)
  | float (x : PyFloat)
  deriving DecidableEq

namespace PyNum

/-- A number as a float, as arithmetic with a float converts it. -/
def toFloat : PyNum → Except PyErr PyFloat
  | .int n => if |(n : ℚ)| < PyVal.floatBound then .ok (.num (double n)) else .error .overflowError
  | .float x => .ok x

/-- `x + y`, an integer if both are. -/
def add (x y : PyNum) : Except PyErr PyNum :=
  match x, y with
  | .int m, .int n => .ok (.int (m + n))
  | x, y =>
    match x.toFloat, y.toFloat with
    | .ok p, .ok q => .ok (.float (p.add q))
    | .error e, _ => .error e
    | _, .error e => .error e

/-- The value, which need not be that of a float. -/
def value : PyNum → PyFloat
  | .int n => .num n
  | .float x => x

/-- `x < y`. -/
def lt (x y : PyNum) : Bool := x.value.lt y.value

/-- `round(x, 2)`, which leaves an integer alone. -/
def round2 : PyNum → PyNum
  | .int n => .int n
  | .float x => .float x.round2

/-- The sum of some numbers and one before them. -/
def sumFrom (x : PyNum) : List PyNum → Except PyErr PyNum
  | [] => .ok x
  | y :: ys =>
    match x.add y with
    | .error e => .error e
    | .ok z => sumFrom z ys

/-- `sum(xs)`. -/
def sum (xs : List PyNum) : Except PyErr PyNum := sumFrom (.int 0) xs

/-- `x / n` for a number of things. The quotient of integers is the float nearest to
    it, and there may be none. -/
def mean (x : PyNum) (n : Nat) : Except PyErr PyFloat :=
  match x with
  | .int m =>
    if |(m : ℚ) / n| < PyVal.floatBound then .ok (.num (double (m / n)))
    else .error .overflowError
  | .float x => .ok (x.div n)

/-- How far an integer is from zero; a float takes no part. -/
def weight : PyNum → Nat
  | .int n => n.natAbs
  | .float _ => 0

theorem toFloat_ok {x : PyNum} (h : (x.weight : ℚ) < PyVal.floatBound) :
    ∃ p, x.toFloat = .ok p := by
  cases x with
  | float x => exact ⟨x, rfl⟩
  | int n =>
      rw [weight, Nat.cast_natAbs, Int.cast_abs] at h
      rw [toFloat, if_pos h]
      exact ⟨_, rfl⟩

/-- Two numbers whose weights stay below the bound have a sum, and it weighs no more. -/
theorem add_ok {x y : PyNum} (h : ((x.weight + y.weight : Nat) : ℚ) < PyVal.floatBound) :
    ∃ z, x.add y = .ok z ∧ z.weight ≤ x.weight + y.weight := by
  rw [Nat.cast_add] at h
  have hx : ∃ p, x.toFloat = .ok p :=
    toFloat_ok (lt_of_le_of_lt (le_add_of_nonneg_right (Nat.cast_nonneg _)) h)
  have hy : ∃ q, y.toFloat = .ok q :=
    toFloat_ok (lt_of_le_of_lt (le_add_of_nonneg_left (Nat.cast_nonneg _)) h)
  rcases hx with ⟨p, hp⟩
  rcases hy with ⟨q, hq⟩
  unfold add
  split
  · exact ⟨_, rfl, Int.natAbs_add_le _ _⟩
  · rw [hp, hq]
    exact ⟨_, rfl, Nat.zero_le _⟩

theorem sumFrom_ok {x : PyNum} {xs : List PyNum}
    (h : ((x.weight + (xs.map weight).sum : Nat) : ℚ) < PyVal.floatBound) :
    ∃ z, sumFrom x xs = .ok z ∧ (z.weight : ℚ) < PyVal.floatBound := by
  induction xs generalizing x with
  | nil => exact ⟨x, rfl, h⟩
  | cons y ys ih =>
      rw [List.map_cons, List.sum_cons, ← Nat.add_assoc] at h
      have hxy : ((x.weight + y.weight : Nat) : ℚ) < PyVal.floatBound :=
        lt_of_le_of_lt (Nat.cast_le.mpr (Nat.le_add_right _ _)) h
      rcases add_ok hxy with ⟨z, hz, hle⟩
      rw [sumFrom, hz]
      exact ih (lt_of_le_of_lt (Nat.cast_le.mpr (Nat.add_le_add_right hle _)) h)

theorem sum_ok {xs : List PyNum} (h : (((xs.map weight).sum : Nat) : ℚ) < PyVal.floatBound) :
    ∃ z, sum xs = .ok z ∧ (z.weight : ℚ) < PyVal.floatBound := by
  refine sumFrom_ok ?_
  rw [weight, Int.natAbs_zero, Nat.zero_add]
  exact h

/-- Dividing by a positive number makes nothing larger. -/
theorem mean_ok {x : PyNum} {n : Nat} (hn : 0 < n) (h : (x.weight : ℚ) < PyVal.floatBound) :
    ∃ p, x.mean n = .ok p := by
  cases x with
  | float x => exact ⟨_, rfl⟩
  | int m =>
      rw [weight, Nat.cast_natAbs, Int.cast_abs] at h
      have hle : |(m : ℚ) / n| ≤ |(m : ℚ)| := by
        rw [abs_div, Nat.abs_cast]
        exact div_le_self (abs_nonneg _) (Nat.one_le_cast.mpr hn)
      rw [mean, if_pos (lt_of_le_of_lt hle h)]
      exact ⟨_, rfl⟩

end PyNum

namespace PyVal

/-- The integer a value is, if it is one. -/
def asInt : PyVal → Option Int
  | .bool b => some (if b then 1 else 0)
  | .int n => some n
  | _ => Option.none

/-- `a - b`, an integer if both are. -/
def minus (a b : PyVal) : Except PyErr PyNum :=
  match a.asInt, b.asInt with
  | some m, some n => .ok (.int (m - n))
  | _, _ =>
    match a.toFloat, b.toFloat with
    | .ok p, .ok q => .ok (.float ((PyFloat.num (double p)).add (PyFloat.num (double q)).neg))
    | .error e, _ => .error e
    | _, .error e => .error e

/-- The difference from a float is a float. -/
theorem minus_float {p q : ℚ} {b : PyVal} (hb : b.toFloat = .ok q) :
    ∃ x, minus (.float p) b = .ok (.float x) := by
  unfold minus
  rw [hb]
  exact ⟨_, rfl⟩

end PyVal

end WhisperNet
