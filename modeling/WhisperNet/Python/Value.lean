import Mathlib.Data.Rat.Defs
import Mathlib.Algebra.Order.Ring.Rat
import Mathlib.Data.Rat.Cast.Order
import Mathlib.Data.List.Lex
import Mathlib.Data.List.Sort
import Mathlib.Order.Fin.Basic
import WhisperNet.Lib.Dict
import WhisperNet.Lib.Rounding

/-!
# Python Values

The values a message or a task record can hold, and the built-in operations
the program applies to them. Messages arrive as decoded JSON and are stored
without a type check, so a field that the source annotates as a number may
hold a string or a list; every operation that can raise on such a value
returns an `Except`.

A string is a list of code points rather than a Lean `String`, because a JSON
document can carry an unpaired surrogate and `str.encode` raises on one. A
float of a value is a rational number, and the arithmetic of most of the
operations is exact; where its rounding matters it is that of `Lib.Rounding`.
A document can carry a number too large for a float, such as `1e999`, and gets
an infinity for it: a rational from `PyVal.floatBound` on stands for the
infinity of its sign, as `PyVal.infinity` does, and to an integer it compares as
`2 ^ 1024`. A value is JSON, so it holds no NaN, which the decoder would take from
a word that is none. A conversion of a text can give it, so the result of one is a
`PyFloat`.

Equality is not the equality of the type. Python compares `1`, `1.0` and
`True` as equal and ignores the order of a dictionary, and both the dedup
caches and the dictionary keys go by that comparison, so `pyEq` compares
normal forms, and `Key` is the normal form of a hashable value.

## Main definitions

* `PyStr`: A string as a list of code points.
* `lit`: The string of a literal.
* `PyErr`: The exceptions the program can meet.
* `PyVal`: A decoded JSON value.
* `PyVal.norm`: The representative of a value under `==`.
* `pyEq`: The `==` of the language.
* `PyVal.lt`: The `<` of the language, which raises on mixed types.
* `Key`: What a value is as a dictionary key.
* `hashKey`: The key of a value, or the error for an unhashable one.
* `PyVal.incr`: The `+= 1` of a stored counter.
* `PyVal.toFloat`, `PyVal.sub`: A number as a float, and a difference.
* `PyFloat`: A float that may be NaN.
* `leastFloat`: The `min` of floats.
* `PyVal.sliceable`: Whether `v[:n]` is defined.

## Theorems

* `bind_eq_ok`: A sequence of two steps that succeeds.
* `PyVal.induct`: Induction over the nesting of a value.
* `pyEq_str`, `pyEq_int`: Comparing with a string, or two integers, is
  equality.
* `lt_int`: Integers compare as integers.
* `incr_number`: A counter just incremented is a number.
* `sub_ok`, `lt_number`: Two numbers can be subtracted and compared.
* `leastFloat_num`, `leastFloat_nan`: What `min` gives.
-/

namespace WhisperNet

/-- A code point, surrogates included. -/
abbrev CodePoint := Fin 0x110000

/-- A Python string. -/
abbrev PyStr := List CodePoint

-- Named, so that no literal and no test for membership carries a proof of its own.
instance (priority := 2000) neZero_codePoint : NeZero 0x110000 := ⟨by decide⟩

instance (priority := 2000) lawfulBEq_codePoint : LawfulBEq CodePoint := inferInstance

instance (priority := 2000) lawfulBEq_pyStr : LawfulBEq PyStr := inferInstance

/-- The Python string of a literal. -/
def lit (s : String) : PyStr := s.toList.map (fun c => Fin.ofNat 0x110000 c.toNat)

/-- The exceptions that can be raised, without their messages. -/
inductive PyErr
  | typeError
  | attributeError
  | valueError
  | keyError
  | indexError
  | unicodeError
  | overflowError
  deriving DecidableEq, Repr

/-- A sequence of two steps that succeeds. -/
theorem bind_eq_ok {α β : Type} {x : Except PyErr α} {f : α → Except PyErr β} {b : β} :
    x.bind f = .ok b ↔ ∃ a, x = .ok a ∧ f a = .ok b := by
  cases x with
  | error e => simp only [Except.bind, reduceCtorEq, false_and, exists_false]
  | ok a => simp only [Except.bind, Except.ok.injEq, exists_eq_left']

theorem exists_of_isOk {ε α : Type} {x : Except ε α} (h : x.isOk = true) : ∃ v, x = .ok v := by
  cases x with
  | ok v => exact ⟨v, rfl⟩
  | error e => exact absurd h Bool.false_ne_true

/-- A decoded JSON value. -/
inductive PyVal
  | none
  | bool (b : Bool)
  | int (n : Int)
  | float (q : ℚ)
  | str (s : PyStr)
  | list (xs : List PyVal)
  | dict (kvs : List (PyStr × PyVal))

mutual

def PyVal.decEq : (a b : PyVal) → Decidable (a = b)
  | .none, b => match b with
    | .none => isTrue rfl
    | .bool _ | .int _ | .float _ | .str _ | .list _ | .dict _ => isFalse nofun
  | .bool x, b => match b with
    | .bool y => if h : x = y then isTrue (by rw [h]) else isFalse (fun hc => h (by injection hc))
    | .none | .int _ | .float _ | .str _ | .list _ | .dict _ => isFalse nofun
  | .int x, b => match b with
    | .int y => if h : x = y then isTrue (by rw [h]) else isFalse (fun hc => h (by injection hc))
    | .none | .bool _ | .float _ | .str _ | .list _ | .dict _ => isFalse nofun
  | .float x, b => match b with
    | .float y => if h : x = y then isTrue (by rw [h]) else isFalse (fun hc => h (by injection hc))
    | .none | .bool _ | .int _ | .str _ | .list _ | .dict _ => isFalse nofun
  | .str x, b => match b with
    | .str y => if h : x = y then isTrue (by rw [h]) else isFalse (fun hc => h (by injection hc))
    | .none | .bool _ | .int _ | .float _ | .list _ | .dict _ => isFalse nofun
  | .list xs, b => match b with
    | .list ys => match PyVal.decEqList xs ys with
      | isTrue h => isTrue (by rw [h])
      | isFalse h => isFalse (fun hc => h (by injection hc))
    | .none | .bool _ | .int _ | .float _ | .str _ | .dict _ => isFalse nofun
  | .dict xs, b => match b with
    | .dict ys => match PyVal.decEqItems xs ys with
      | isTrue h => isTrue (by rw [h])
      | isFalse h => isFalse (fun hc => h (by injection hc))
    | .none | .bool _ | .int _ | .float _ | .str _ | .list _ => isFalse nofun

def PyVal.decEqList : (xs ys : List PyVal) → Decidable (xs = ys)
  | [], [] => isTrue rfl
  | [], _ :: _ => isFalse nofun
  | _ :: _, [] => isFalse nofun
  | x :: xs, y :: ys => match PyVal.decEq x y, PyVal.decEqList xs ys with
    | isTrue h, isTrue hs => isTrue (by rw [h, hs])
    | isFalse h, _ => isFalse (fun hc => h (by injection hc))
    | _, isFalse hs => isFalse (fun hc => hs (by injection hc))

def PyVal.decEqItems : (xs ys : List (PyStr × PyVal)) → Decidable (xs = ys)
  | [], [] => isTrue rfl
  | [], _ :: _ => isFalse nofun
  | _ :: _, [] => isFalse nofun
  | (k, x) :: xs, (l, y) :: ys =>
    if hk : k = l then
      match PyVal.decEq x y, PyVal.decEqItems xs ys with
      | isTrue h, isTrue hs => isTrue (by rw [hk, h, hs])
      | isFalse h, _ => isFalse (fun hc => h (by injection hc with h1; injection h1))
      | _, isFalse hs => isFalse (fun hc => hs (by injection hc))
    else isFalse (fun hc => hk (by injection hc with h1; injection h1))

end

instance : DecidableEq PyVal := PyVal.decEq

namespace PyVal

/-- Induction over a value: what holds of the elements of a list holds of it,
    and what holds of the values of a dictionary holds of it. -/
@[elab_as_elim] theorem induct {P : PyVal → Prop} (none : P .none) (bool : ∀ b, P (.bool b))
    (int : ∀ n, P (.int n)) (float : ∀ q, P (.float q)) (str : ∀ s, P (.str s))
    (list : ∀ xs, (∀ x ∈ xs, P x) → P (.list xs))
    (dict : ∀ kvs, (∀ e ∈ kvs, P e.2) → P (.dict kvs)) (v : PyVal) : P v := by
  refine @PyVal.rec P (fun xs => ∀ x ∈ xs, P x) (fun kvs => ∀ e ∈ kvs, P e.2) (fun e => P e.2)
    none bool int float str list dict ?_ ?_ ?_ ?_ ?_ v
  · exact fun x hx => (List.not_mem_nil hx).elim
  · intro x xs hx hxs y hy
    rcases List.mem_cons.mp hy with rfl | hy
    · exact hx
    · exact hxs y hy
  · exact fun x hx => (List.not_mem_nil hx).elim
  · intro e kvs he hkvs y hy
    rcases List.mem_cons.mp hy with rfl | hy
    · exact he
    · exact hkvs y hy
  · exact fun k x hx => hx

/-- `bool(v)`. -/
def truthy : PyVal → Bool
  | .none => false
  | .bool b => b
  | .int n => n ≠ 0
  | .float q => q ≠ 0
  | .str s => s ≠ []
  | .list xs => xs.length ≠ 0
  | .dict kvs => kvs.length ≠ 0

/-- The number a value is, if it is one; a boolean counts as an integer. -/
def asNum : PyVal → Option ℚ
  | .bool b => some (if b then 1 else 0)
  | .int n => some n
  | .float q => some q
  | _ => Option.none

mutual

/-- The representative of a value under `==`: numbers by their value,
    dictionaries by their sorted items. -/
def norm : PyVal → PyVal
  | .none => .none
  | .bool b => .float (if b then 1 else 0)
  | .int n => .float n
  | .float q => .float q
  | .str s => .str s
  | .list xs => .list (normList xs)
  | .dict kvs => .dict ((normItems kvs).insertionSort (fun a b => a.1 ≤ b.1))

def normList : List PyVal → List PyVal
  | [] => []
  | x :: xs => norm x :: normList xs

def normItems : List (PyStr × PyVal) → List (PyStr × PyVal)
  | [] => []
  | (k, x) :: xs => (k, norm x) :: normItems xs

end

end PyVal

/-- `a == b`. -/
def pyEq (a b : PyVal) : Bool := a.norm = b.norm

/-- `v in xs` for a list or a deque. -/
def pyIn (v : PyVal) (xs : List PyVal) : Bool := xs.any (fun x => pyEq x v)

theorem pyEq_str (v : PyVal) (s : PyStr) : pyEq v (.str s) = true ↔ v = .str s := by
  unfold pyEq
  rw [decide_eq_true_iff]
  cases v with
  | none => simp only [PyVal.norm, reduceCtorEq]
  | bool b => simp only [PyVal.norm, reduceCtorEq]
  | int n => simp only [PyVal.norm, reduceCtorEq]
  | float q => simp only [PyVal.norm, reduceCtorEq]
  | str s' => simp only [PyVal.norm]
  | list xs => simp only [PyVal.norm, reduceCtorEq]
  | dict kvs => simp only [PyVal.norm, reduceCtorEq]

@[simp] theorem pyEq_int (m n : Int) : pyEq (.int m) (.int n) = true ↔ m = n := by
  unfold pyEq
  rw [decide_eq_true_iff]
  simp only [PyVal.norm, PyVal.float.injEq, Int.cast_inj]

@[simp] theorem pyEq_refl (v : PyVal) : pyEq v v = true := by
  simp only [pyEq, decide_true]

namespace PyVal

mutual

/-- `a < b`: numbers by value, strings and lists lexicographically; anything
    else raises a `TypeError`. -/
def lt : PyVal → PyVal → Except PyErr Bool
  | .str a, b => match b with
    | .str c => .ok (decide (a < c))
    | _ => .error .typeError
  | .list xs, b => match b with
    | .list ys => ltList xs ys
    | _ => .error .typeError
  | a, b => match asNum a, asNum b with
    | some p, some q => .ok (decide (p < q))
    | _, _ => .error .typeError

def ltList : List PyVal → List PyVal → Except PyErr Bool
  | [], [] => .ok false
  | [], _ :: _ => .ok true
  | _ :: _, [] => .ok false
  | x :: xs, y :: ys => if pyEq x y then ltList xs ys else lt x y

end

/-- `a > b`. -/
def gt (a b : PyVal) : Except PyErr Bool := lt b a

/-- The least number too large for a float. From here on a rational stands for
    an infinity. -/
def floatBound : ℚ := 2 ^ 1024 - 2 ^ 970

/-- What stands for the infinite float. -/
def infinity : ℚ := overflow

/-- `v += 1`. A float that is large enough stays what it is. -/
def incr : PyVal → Except PyErr PyVal
  | .bool b => .ok (.int ((if b then 1 else 0) + 1))
  | .int n => .ok (.int (n + 1))
  | .float q => .ok (.float (if floatBound ≤ |q| then q else double (q + 1)))
  | _ => .error .typeError

/-- A number as a float, as arithmetic with a float converts it. -/
def toFloat : PyVal → Except PyErr ℚ
  | .bool b => .ok (if b then 1 else 0)
  | .int n => if |(n : ℚ)| < floatBound then .ok n else .error .overflowError
  | .float q => .ok q
  | _ => .error .typeError

/-- The number `a - b`, which is computed on integers if both are. -/
def sub (a b : PyVal) : Except PyErr ℚ :=
  match a, b with
  | .int m, .int n => .ok (m - n)
  | .int m, .bool b => .ok (m - if b then 1 else 0)
  | .bool b, .int n => .ok ((if b then 1 else 0) - n)
  | a, b =>
    match toFloat a, toFloat b with
    | .ok p, .ok q => .ok (p - q)
    | .error e, _ => .error e
    | _, .error e => .error e

/-- Whether `v[:n]` is defined. -/
def sliceable : PyVal → Bool
  | .str _ => true
  | .list _ => true
  | _ => false

/-- `d.get(k)` with the default `None`. -/
def get (kvs : List (PyStr × PyVal)) (k : PyStr) : PyVal := (lookup k kvs).getD .none

/-- `d.get(k, v)`. -/
def getD (kvs : List (PyStr × PyVal)) (k : PyStr) (v : PyVal) : PyVal := (lookup k kvs).getD v

end PyVal

/-- A float: a number, an infinity in its place from `PyVal.floatBound` on, or NaN. -/
inductive PyFloat
  | num (q : ℚ)
  | nan
  deriving DecidableEq

/-- `x < y`, which is false of NaN on either side. -/
def PyFloat.lt : PyFloat → PyFloat → Bool
  | .num p, .num q => p < q
  | _, _ => false

/-- `min` of floats: the first one that no later one is less than. -/
def leastFloat (x : PyFloat) (xs : List PyFloat) : PyFloat :=
  xs.foldl (fun least y => if y.lt least then y else least) x

theorem leastFloat_mem (x : PyFloat) (xs : List PyFloat) : leastFloat x xs ∈ x :: xs := by
  induction xs generalizing x with
  | nil => exact List.mem_singleton_self x
  | cons y ys ih =>
      rcases List.mem_cons.mp (ih (if y.lt x then y else x)) with heq | hmem
      · rw [leastFloat, List.foldl_cons, ← leastFloat, heq]
        split
        · exact List.mem_cons_of_mem _ (List.mem_cons_self ..)
        · exact List.mem_cons_self ..
      · exact List.mem_cons_of_mem _ (List.mem_cons_of_mem _ hmem)

/-- No number is less than NaN, so nothing takes its place. -/
theorem leastFloat_nan (xs : List PyFloat) : leastFloat .nan xs = .nan := by
  induction xs with
  | nil => rfl
  | cons y ys ih =>
      have hnot : y.lt .nan = false := by
        cases y with
        | num q => rfl
        | nan => rfl
      rw [leastFloat, List.foldl_cons, hnot, if_neg Bool.false_ne_true]
      exact ih

/-- From a number on, the least is a number, and no number among the rest is less. -/
theorem leastFloat_num (q : ℚ) (xs : List PyFloat) :
    ∃ c, leastFloat (.num q) xs = .num c ∧ c ≤ q ∧ ∀ r, PyFloat.num r ∈ xs → c ≤ r := by
  induction xs generalizing q with
  | nil => exact ⟨q, rfl, le_rfl, fun r hr => (List.not_mem_nil hr).elim⟩
  | cons y ys ih =>
      rw [leastFloat, List.foldl_cons, ← leastFloat]
      cases y with
      | nan =>
          -- NaN is not less than anything, so the least so far stays.
          rcases ih q with ⟨c, hc, hle, hall⟩
          refine ⟨c, hc, hle, fun r hr => ?_⟩
          rcases List.mem_cons.mp hr with heq | hmem
          · cases heq
          · exact hall r hmem
      | num p =>
          by_cases hlt : p < q
          · have hnew : (PyFloat.num p).lt (.num q) = true := decide_eq_true hlt
            rcases ih p with ⟨c, hc, hle, hall⟩
            rw [if_pos hnew]
            refine ⟨c, hc, hle.trans hlt.le, fun r hr => ?_⟩
            rcases List.mem_cons.mp hr with heq | hmem
            · rw [PyFloat.num.inj heq]
              exact hle
            · exact hall r hmem
          · have hkept : ¬ (PyFloat.num p).lt (.num q) = true := fun hc =>
              hlt (of_decide_eq_true hc)
            rcases ih q with ⟨c, hc, hle, hall⟩
            rw [if_neg hkept]
            refine ⟨c, hc, hle, fun r hr => ?_⟩
            rcases List.mem_cons.mp hr with heq | hmem
            · rw [PyFloat.num.inj heq]
              exact hle.trans (not_lt.mp hlt)
            · exact hall r hmem

/-- A counter that was just incremented is a number. -/
theorem incr_number (v w : PyVal) (h : v.incr = .ok w) :
    (∃ n, w = .int n) ∨ ∃ q, w = .float q := by
  cases v with
  | bool b => exact Or.inl ⟨_, (Except.ok.inj h).symm⟩
  | int n => exact Or.inl ⟨_, (Except.ok.inj h).symm⟩
  | float q => exact Or.inr ⟨_, (Except.ok.inj h).symm⟩
  | none => exact absurd h (by simp only [PyVal.incr, reduceCtorEq, not_false_eq_true])
  | str s => exact absurd h (by simp only [PyVal.incr, reduceCtorEq, not_false_eq_true])
  | list xs => exact absurd h (by simp only [PyVal.incr, reduceCtorEq, not_false_eq_true])
  | dict kvs => exact absurd h (by simp only [PyVal.incr, reduceCtorEq, not_false_eq_true])

@[simp] theorem lt_int (m n : Int) : PyVal.lt (.int m) (.int n) = .ok (decide (m < n)) := by
  simp only [PyVal.lt, PyVal.asNum, Int.cast_lt]

/-- Two numbers in the range of a float have a difference. -/
theorem sub_ok {a b : PyVal} {p q : ℚ} (ha : a.toFloat = .ok p) (hb : b.toFloat = .ok q) :
    ∃ d, a.sub b = .ok d := by
  unfold PyVal.sub
  split
  · exact ⟨_, rfl⟩
  · exact ⟨_, rfl⟩
  · exact ⟨_, rfl⟩
  · rw [ha, hb]
    exact ⟨_, rfl⟩

/-- Two numbers compare by their values. -/
theorem lt_number {a b : PyVal} {p q : ℚ} (ha : a.asNum = some p) (hb : b.asNum = some q) :
    PyVal.lt a b = .ok (decide (p < q)) := by
  cases a with
  | bool x => simp only [PyVal.lt, ha, hb]
  | int m => simp only [PyVal.lt, ha, hb]
  | float r => simp only [PyVal.lt, ha, hb]
  | none => exact (nomatch ha)
  | str s => exact (nomatch ha)
  | list xs => exact (nomatch ha)
  | dict kvs => exact (nomatch ha)

/-- A value as a dictionary key: hashable values, equal ones identified. -/
inductive Key
  | none
  | num (q : ℚ)
  | str (s : PyStr)
  deriving DecidableEq

/-- The key of a value; lists and dictionaries are unhashable. -/
def hashKey : PyVal → Except PyErr Key
  | .none => .ok .none
  | .bool b => .ok (.num (if b then 1 else 0))
  | .int n => .ok (.num n)
  | .float q => .ok (.num q)
  | .str s => .ok (.str s)
  | .list _ => .error .typeError
  | .dict _ => .error .typeError

theorem hashKey_eq_str (v : PyVal) (s : PyStr) : hashKey v = .ok (.str s) ↔ v = .str s := by
  cases v with
  | none => simp only [hashKey, Except.ok.injEq, reduceCtorEq]
  | bool b => simp only [hashKey, Except.ok.injEq, reduceCtorEq]
  | int n => simp only [hashKey, Except.ok.injEq, reduceCtorEq]
  | float q => simp only [hashKey, Except.ok.injEq, reduceCtorEq]
  | str s' => simp only [hashKey, Except.ok.injEq, Key.str.injEq, PyVal.str.injEq]
  | list xs => simp only [hashKey, reduceCtorEq]
  | dict kvs => simp only [hashKey, reduceCtorEq]

end WhisperNet
