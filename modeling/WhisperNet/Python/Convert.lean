import Mathlib.Algebra.Field.Rat
import Mathlib.Algebra.Order.Field.Basic
import WhisperNet.Python.Unicode

/-!
# Conversions

The constructors `int`, `float` and `list` applied to a decoded value, which is
how the program brings an advertised field to the type it stores. Each raises
on a value it has no conversion for.

A number is read from a text the way the interpreter of the image does it. The
whitespace and the decimal digits of Unicode are first brought to ASCII, and the
grammar is that of the result: blanks around it, a sign, digits with single
underscores between them and, for a float, a point and an exponent, or else the
word for an infinity or for NaN. An integer has at most 4300 digits.

## Main definitions

* `toAscii`: The text that a number is read from.
* `digitRun`: The digits a text starts with.
* `wordOf`: The float that a word stands for.
* `pyInt`: `int(v)`.
* `pyFloat`: `float(v)`.
* `pyList`: `list(v)`.
* `Key.toVal`: The value of a dictionary key.
* `hashed`: The dictionary key of a hashable value.

## Theorems

* `pyInt_int`, `pyFloat_float`: Values of the right type.
* `hashKey_toVal`: A key read back is the key.
* `toVal_eq_none`: Only the key `None` has the value `None`.
* `pyEq_iff_hashed`: Equal hashable values have equal keys.
-/

namespace WhisperNet

/-- The zeros of Unicode; the nine digits after each follow it. -/
def digitZeros : List Nat :=
  [48, 1632, 1776, 1984, 2406, 2534, 2662, 2790, 2918, 3046, 3174, 3302, 3430, 3558, 3664, 3792,
   3872, 4160, 4240, 6112, 6160, 6470, 6608, 6784, 6800, 6992, 7088, 7232, 7248, 42528, 43216,
   43264, 43472, 43504, 43600, 44016, 65296, 66720, 68912, 69734, 69872, 69942, 70096, 70384, 70736,
   70864, 71248, 71360, 71472, 71904, 72016, 72784, 73040, 73120, 92768, 92864, 93008, 120782,
   120792, 120802, 120812, 120822, 123200, 123632, 125264, 130032]

/-- A character as one of ASCII, if it has a place in a number. -/
def asciiOf (c : CodePoint) : Option CodePoint :=
  if c.val < 127 then some c
  else if Unicode.isSpace c then some 32
  else (digitZeros.find? (fun z => z ≤ c.val ∧ c.val < z + 10)).map
    (fun z => Fin.ofNat 0x110000 (48 + (c.val - z)))

def toAscii (s : PyStr) : Option PyStr := s.mapM asciiOf

/-- The blanks that may stand around a number. -/
def isSpaceAscii (c : CodePoint) : Bool := c.val = 32 ∨ (9 ≤ c.val ∧ c.val ≤ 13)

def trim (s : PyStr) : PyStr := ((s.dropWhile isSpaceAscii).reverse.dropWhile isSpaceAscii).reverse

/-- The value of a decimal digit. -/
def digit? (c : CodePoint) : Option Nat :=
  if 48 ≤ c.val ∧ c.val ≤ 57 then some (c.val - 48) else none

/-- The digits that continue a run, and the rest of the text. -/
def moreDigits : PyStr → List Nat × PyStr
  | [] => ([], [])
  | c :: s => match digit? c with
    | some d => (d :: (moreDigits s).1, (moreDigits s).2)
    -- An underscore is skipped only where a digit follows it.
    | none => if c.val = 95 ∧ ((s.head?.bind digit?).isSome : Bool) then moreDigits s
      else ([], c :: s)

/-- The digits a text starts with, and the rest of it. -/
def digitRun (s : PyStr) : List Nat × PyStr :=
  if (s.head?.bind digit?).isSome then moreDigits s else ([], s)

def ofDigits (ds : List Nat) : Nat := ds.foldl (fun n d => 10 * n + d) 0

/-- A sign, and the text after it. -/
def signed : PyStr → Int × PyStr
  | [] => (1, [])
  | c :: s => if c.val = 45 then (-1, s) else if c.val = 43 then (1, s) else (1, c :: s)

/-- The most digits that `int` reads. -/
def maxStrDigits : Nat := 4300

/-- `int(s)` of a text. -/
def intOfText (s : PyStr) : Except PyErr Int :=
  match toAscii s with
  | none => .error .valueError
  | some s =>
    let (sign, s) := signed (trim s)
    match digitRun s with
    | (d :: ds, []) =>
      if (d :: ds).length ≤ maxStrDigits then .ok (sign * ofDigits (d :: ds))
      else .error .valueError
    | _ => .error .valueError

/-- The exponent at the end of the text of a float. -/
def exponent : PyStr → Except PyErr Int
  | [] => .ok 0
  | c :: s =>
    if c.val = 101 ∨ c.val = 69 then
      let (sign, s) := signed s
      match digitRun s with
      | (d :: ds, []) => .ok (sign * ofDigits (d :: ds))
      | _ => .error .valueError
    else .error .valueError

/-- The lower case of a letter of ASCII. -/
def lowerAscii (c : CodePoint) : CodePoint :=
  if 65 ≤ c.val ∧ c.val ≤ 90 then Fin.ofNat 0x110000 (c.val + 32) else c

/-- The float that a word stands for, with its sign. -/
def wordOf (sign : Int) (s : PyStr) : Option PyFloat :=
  let word := s.map lowerAscii
  if word = lit "inf" ∨ word = lit "infinity" then some (.num (sign * PyVal.infinity))
  else if word = lit "nan" then some .nan
  else none

/-- The value of digits with a point and an exponent. -/
def decimalOf (sign : Int) (s : PyStr) : Except PyErr PyFloat :=
  let (whole, s) := digitRun s
  let (frac, s) := match s with
    | c :: rest => if c.val = 46 then digitRun rest else ([], c :: rest)
    | [] => ([], [])
  if whole.isEmpty && frac.isEmpty then .error .valueError
  else (exponent s).map (fun e =>
    .num (sign * (ofDigits (whole ++ frac) : ℚ) * (10 : ℚ) ^ (e - (frac.length : ℤ))))

/-- `float(s)` of a text. -/
def floatOfText (s : PyStr) : Except PyErr PyFloat :=
  match toAscii s with
  | none => .error .valueError
  | some s =>
    let (sign, s) := signed (trim s)
    match wordOf sign s with
    | some x => .ok x
    | none => decimalOf sign s

/-- `int(v)`; a float is truncated, and an infinity has no integer. -/
def pyInt : PyVal → Except PyErr Int
  | .bool b => .ok (if b then 1 else 0)
  | .int n => .ok n
  | .float q => if |q| < PyVal.floatBound then .ok (q.num.tdiv q.den) else .error .overflowError
  | .str s => intOfText s
  | .none | .list _ | .dict _ => .error .typeError

/-- `float(v)`. -/
def pyFloat : PyVal → Except PyErr PyFloat
  | .str s => floatOfText s
  | v => v.toFloat.map .num

/-- `list(v)`: the items, the characters or the keys. -/
def pyList : PyVal → Except PyErr (List PyVal)
  | .list xs => .ok xs
  | .str s => .ok (s.map (fun c => .str [c]))
  | .dict kvs => .ok (kvs.map (fun e => .str e.1))
  | .none | .bool _ | .int _ | .float _ => .error .typeError

@[simp] theorem pyInt_int (n : Int) : pyInt (.int n) = .ok n := rfl

@[simp] theorem pyFloat_float (q : ℚ) : pyFloat (.float q) = .ok (.num q) := rfl

/-- The value of a dictionary key; equal numbers are one key. -/
def Key.toVal : Key → PyVal
  | .none => .none
  | .num q => if q.den = 1 then .int q.num else .float q
  | .str s => .str s

theorem hashKey_toVal (k : Key) : hashKey k.toVal = .ok k := by
  cases k with
  | none => rfl
  | str s => rfl
  | num q =>
      by_cases hd : q.den = 1
      · have hq : (q.num : ℚ) = q := Rat.den_eq_one_iff q |>.mp hd
        simp only [Key.toVal, if_pos hd, hashKey, hq]
      · simp only [Key.toVal, if_neg hd, hashKey]

theorem toVal_eq_none (k : Key) : k.toVal = .none ↔ k = .none := by
  cases k with
  | none => exact ⟨fun _ => rfl, fun _ => rfl⟩
  | str s => exact ⟨fun h => (nomatch h), fun h => (nomatch h)⟩
  | num q =>
      by_cases hd : q.den = 1
      · simp only [Key.toVal, if_pos hd, reduceCtorEq]
      · simp only [Key.toVal, if_neg hd, reduceCtorEq]

/-- The dictionary key of a hashable value. -/
def hashed (v : PyVal) : Key := (hashKey v).toOption.getD .none

/-- The representative of the values of a key. -/
def Key.norm : Key → PyVal
  | .none => .none
  | .num q => .float q
  | .str s => .str s

theorem hashed_of_ok {v : PyVal} {k : Key} (h : hashKey v = .ok k) : hashed v = k := by
  rw [hashed, h]
  rfl

theorem norm_of_hashKey {v : PyVal} {k : Key} (h : hashKey v = .ok k) : v.norm = k.norm := by
  cases v with
  | none => rw [← Except.ok.inj h]; rfl
  | bool b => rw [← Except.ok.inj h]; rfl
  | int n => rw [← Except.ok.inj h]; rfl
  | float q => rw [← Except.ok.inj h]; rfl
  | str s => rw [← Except.ok.inj h]; rfl
  | list xs => exact (nomatch h)
  | dict kvs => exact (nomatch h)

theorem Key.norm_injective : Function.Injective Key.norm := by
  intro k l h
  cases k with
  | none => cases l with
    | none => rfl
    | num q => exact (nomatch h)
    | str s => exact (nomatch h)
  | num q => cases l with
    | none => exact (nomatch h)
    | num r => rw [PyVal.float.inj h]
    | str s => exact (nomatch h)
  | str s => cases l with
    | none => exact (nomatch h)
    | num q => exact (nomatch h)
    | str s' => rw [PyVal.str.inj h]

/-- Hashable values are equal exactly when they are equal as keys. -/
theorem pyEq_iff_hashed {v w : PyVal} {k l : Key} (hv : hashKey v = .ok k)
    (hw : hashKey w = .ok l) :
    pyEq v w = true ↔ hashed v = hashed w := by
  rw [hashed_of_ok hv, hashed_of_ok hw, pyEq, decide_eq_true_iff, norm_of_hashKey hv,
    norm_of_hashKey hw]
  exact Key.norm_injective.eq_iff

example : intOfText (lit " -1_2 ") = .ok (-12) := by decide +kernel

example : floatOfText (lit "2.50e1") = .ok (.num 25) := by decide +kernel

example : floatOfText (lit "-Infinity") = .ok (.num (-PyVal.infinity)) := by decide +kernel

end WhisperNet
