import Mathlib.Data.List.Chain
import WhisperNet.Python.Json

/-!
# Reading Back What Was Written

The decoder applied to the text the writer produces. It reads the whole text
and nothing less: the value comes back, up to what the text cannot express,
and a part of the text of an object that ends early is not the text of any
value.

Three things do not survive. Two characters that are the halves of a surrogate
pair come back as one, of two items under one key the later one is kept, and a
float comes back as the value of its text. `Plain` values have none of these
and come back as they are.

## Main definitions

* `rejoin`: A string after it was written and read.
* `reread`: A value after it was written and read.
* `Plain`: A value that the text expresses exactly.

## Theorems

* `readValue_render`: The decoder reads the text of a value up to its end.
* `loads_dumps`: A value comes back.
* `loads_cut`: The text of an object cut short is not decoded.
* `reread_plain`: A plain value comes back as it is.
-/

namespace WhisperNet

namespace Json

attribute [local instance] neZero_ten

/-! ## Strings -/

/-- The units the escape of a character is read as. -/
def units (c : CodePoint) : List (CodePoint × Bool) :=
  if (shortEscape c).isSome then [(c, false)]
  else if 32 ≤ c.val ∧ c.val ≤ 126 then [(c, false)]
  else if c.val < 0x10000 then [(c, true)]
  else [(Fin.ofNat 0x110000 (0xD800 + (c.val - 0x10000) / 0x400), true),
    (Fin.ofNat 0x110000 (0xDC00 + (c.val - 0x10000) % 0x400), true)]

/-- A string after it was written and read. -/
def rejoin (s : PyStr) : PyStr := joinUnits (s.flatMap units)

theorem hexValue_hexDigit (n : Nat) (h : n < 16) : hexValue? (hexDigit n) = some n := by
  have hall : ∀ m : Fin 16, hexValue? (hexDigit m.val) = some m.val := by decide
  exact hall ⟨n, h⟩

theorem readUnits_escapeUnit (n : Nat) (h : n < 0x10000) (s : PyStr) :
    readUnits (escapeUnit n ++ s) =
      (readUnits s).map (fun r => ((Fin.ofNat 0x110000 n, true) :: r.1, r.2)) := by
  have hunit : unit? (hexDigit (n / 4096 % 16)) (hexDigit (n / 256 % 16)) (hexDigit (n / 16 % 16))
      (hexDigit (n % 16)) = some (Fin.ofNat 0x110000 n) := by
    have hvalue : ((n / 4096 % 16 * 16 + n / 256 % 16) * 16 + n / 16 % 16) * 16 + n % 16 = n := by
      omega
    unfold unit?
    rw [hexValue_hexDigit _ (by omega), hexValue_hexDigit _ (by omega),
      hexValue_hexDigit _ (by omega), hexValue_hexDigit _ (by omega)]
    simp only [hvalue]
  exact readUnits_unit s hunit

/-- The letters of the short escapes stand for what they escape. -/
theorem unescape_shortEscape {c e : CodePoint} (h : shortEscape c = some e) :
    unescape e = some c ∧ e ≠ 117 := by
  -- The table of the short escapes, entry by entry.
  unfold shortEscape at h
  split at h
  · rename_i hc
    rw [hc, ← Option.some.inj h]
    decide
  · split at h
    · rename_i hc
      rw [hc, ← Option.some.inj h]
      decide
    · have hval : ∀ n : CodePoint, c.val = n.val → c = n := fun n hn => Fin.ext hn
      split at h
      · rename_i hc
        rw [hval 8 hc, ← Option.some.inj h]
        decide
      · split at h
        · rename_i hc
          rw [hval 9 hc, ← Option.some.inj h]
          decide
        · split at h
          · rename_i hc
            rw [hval 10 hc, ← Option.some.inj h]
            decide
          · split at h
            · rename_i hc
              rw [hval 12 hc, ← Option.some.inj h]
              decide
            · split at h
              · rename_i hc
                rw [hval 13 hc, ← Option.some.inj h]
                decide
              · exact (nomatch h)

theorem shortEscape_none {c : CodePoint} (h : shortEscape c = none) :
    c ≠ quoteMark ∧ c ≠ backslash := by
  constructor
  · rintro rfl
    exact (nomatch h)
  · rintro rfl
    exact (nomatch h)

theorem readUnits_escape (c : CodePoint) (s : PyStr) :
    readUnits (escape c ++ s) = (readUnits s).map (fun r => (units c ++ r.1, r.2)) := by
  unfold escape units
  cases he : shortEscape c with
  | some e =>
      have hback := unescape_shortEscape he
      simp only [Option.isSome_some, if_true, List.cons_append, List.nil_append]
      exact readUnits_short s hback.2 hback.1
  | none =>
      have hplain := shortEscape_none he
      simp only [Option.isSome_none, Bool.false_eq_true, if_false]
      by_cases hprint : 32 ≤ c.val ∧ c.val ≤ 126
      · simp only [if_pos hprint, List.cons_append, List.nil_append]
        exact readUnits_plain s hplain.1 hplain.2 (by omega)
      · simp only [if_neg hprint]
        by_cases hsmall : c.val < 0x10000
        · simp only [if_pos hsmall, readUnits_escapeUnit c.val hsmall]
          rw [show Fin.ofNat 0x110000 c.val = c from Fin.ext (Nat.mod_eq_of_lt c.isLt)]
          rfl
        · have hlt := c.isLt
          simp only [if_neg hsmall, List.append_assoc]
          rw [readUnits_escapeUnit _ (by omega), readUnits_escapeUnit _ (by omega), Option.map_map]
          rfl

theorem readString_quote (s k : PyStr) :
    readString (s.flatMap escape ++ quoteMark :: k) = some (rejoin s, k) := by
  have hunits : readUnits (s.flatMap escape ++ quoteMark :: k) = some (s.flatMap units, k) := by
    induction s with
    | nil => exact readUnits_quote k
    | cons c s ih =>
        rw [List.flatMap_cons, List.append_assoc, readUnits_escape, ih]
        rfl
  rw [readString, hunits]
  rfl

/-! ## Numbers -/

/-- No digit, point or exponent follows. -/
def Stops (k : PyStr) : Prop := ∀ c t, k = c :: t → numberMark c = false

theorem Stops.cons {c : CodePoint} (k : PyStr) (h : numberMark c = false) : Stops (c :: k) := by
  intro d t hk
  rw [← (List.cons.inj hk).1]
  exact h

theorem digit_digitMark (d : Fin 10) : digit? (digitMark d) = some d.val := by
  have hall : ∀ m : Fin 10, digit? (digitMark m) = some m.val := by decide
  exact hall d

theorem digits_map (ds : List (Fin 10)) {k : PyStr} (h : ∀ c t, k = c :: t → digit? c = none) :
    digits (ds.map digitMark ++ k) = (ds.map Fin.val, k) := by
  induction ds with
  | nil =>
      cases k with
      | nil => rfl
      | cons c t => simp only [List.map_nil, List.nil_append, digits, h c t rfl]
  | cons d ds ih =>
      simp only [List.map_cons, List.cons_append, digits, digit_digitMark, ih]

/-- The digits of a number without a needless zero in front. -/
def Leading (ds : List (Fin 10)) : Prop := ds = [0] ∨ ∃ d rest, ds = d :: rest ∧ d ≠ 0

theorem readWhole_map {ds : List (Fin 10)} (hds : Leading ds) {k : PyStr}
    (h : ∀ c t, k = c :: t → digit? c = none) :
    readWhole (ds.map digitMark ++ k) = some (ds.map Fin.val, k) := by
  rcases hds with rfl | ⟨d, rest, rfl, hd⟩
  · rfl
  · have hzero : (digitMark d).val ≠ 48 := by
      have hall : ∀ m : Fin 10, m ≠ 0 → (digitMark m).val ≠ 48 := by decide
      exact hall d hd
    have hsome : (digit? (digitMark d)).isSome = true := by rw [digit_digitMark, Option.isSome_some]
    rw [List.map_cons, List.cons_append, readWhole, if_neg hzero, if_pos hsome, ← List.cons_append,
      ← List.map_cons, digits_map (d :: rest) h]

theorem ofDigits_wholeDigits (n : Nat) : ofDigits ((wholeDigits n).map Fin.val) = n := by
  induction n using wholeDigits.induct with
  | case1 n h =>
      rw [wholeDigits, dif_pos h]
      exact Nat.zero_add n
  | case2 n h ih =>
      rw [wholeDigits, dif_neg h, List.map_append, ofDigits, List.foldl_append, ← ofDigits, ih]
      simp only [List.map_cons, List.map_nil, List.foldl_cons, List.foldl_nil]
      omega

theorem repr_wholeDigits (n : Nat) : lit (Nat.repr n) = (wholeDigits n).map digitMark := by
  have hmark : ∀ d : Fin 10, [Nat.digitChar d.val].map (fun c => Fin.ofNat 0x110000 c.toNat)
      = [d].map digitMark := by decide
  rw [lit, Nat.toList_repr]
  induction n using wholeDigits.induct with
  | case1 n h =>
      rw [wholeDigits, dif_pos h, Nat.toDigits_of_lt_base h]
      exact hmark ⟨n, h⟩
  | case2 n h ih =>
      rw [wholeDigits, dif_neg h, Nat.toDigits_of_base_le (by omega) (by omega), List.map_append,
        ih, List.map_append]
      exact congrArg _ (hmark ⟨n % 10, Nat.mod_lt n (by omega)⟩)

theorem numberMark_digit {c : CodePoint} (h : numberMark c = false) : digit? c = none := by
  simp only [numberMark, decide_eq_false_iff_not, not_or] at h
  exact Option.not_isSome_iff_eq_none.mp h.1

theorem readSign_map (negative : Bool) {ds : List (Fin 10)} (hds : Leading ds) (k : PyStr) :
    readSign (minusMark negative ++ (ds.map digitMark ++ k))
      = (negative, ds.map digitMark ++ k) := by
  cases negative with
  | true => rfl
  | false =>
      obtain ⟨d, rest, rfl⟩ : ∃ d rest, ds = d :: rest := by
        rcases hds with h | ⟨d, rest, h, _⟩
        · exact ⟨0, [], h⟩
        · exact ⟨d, rest, h⟩
      have hminus : ∀ m : Fin 10, (digitMark m).val ≠ 45 := by decide
      exact if_neg (hminus d)

theorem readFrac_stops {k : PyStr} (h : ∀ c t, k = c :: t → c.val ≠ 46) : readFrac k = ([], k) := by
  cases k with
  | nil => rfl
  | cons c t => simp only [readFrac, h c t rfl, false_and, if_false]

theorem readExponent_stops {k : PyStr} (h : Stops k) : readExponent k = ((false, []), k) := by
  cases k with
  | nil => rfl
  | cons c t =>
      have hc := h c t rfl
      simp only [numberMark, decide_eq_false_iff_not, not_or] at hc
      simp only [readExponent, hc.2.2, or_self, false_and, if_false]

theorem Stops.digit {k : PyStr} (h : Stops k) (c : CodePoint) (t : PyStr) (hk : k = c :: t) :
    digit? c = none :=
  numberMark_digit (h c t hk)

theorem Stops.point {k : PyStr} (h : Stops k) (c : CodePoint) (t : PyStr) (hk : k = c :: t) :
    c.val ≠ 46 := by
  have hc := h c t hk
  simp only [numberMark, decide_eq_false_iff_not, not_or] at hc
  exact hc.2.1

/-- The text of an integer is a sign and digits. -/
theorem decimal_digits (n : Int) : ∃ ds, Leading ds ∧ ofDigits (ds.map Fin.val) = n.natAbs ∧
    decimal n = minusMark (decide (n < 0)) ++ ds.map digitMark := by
  refine ⟨wholeDigits n.natAbs, wholeDigits_leading _, ofDigits_wholeDigits _, ?_⟩
  rw [← repr_wholeDigits]
  by_cases hneg : n < 0
  · simp only [decimal, minusMark, hneg, decide_true, if_true]
  · simp only [decimal, minusMark, hneg, decide_false, Bool.false_eq_true, if_false,
      List.nil_append]

theorem readNumber_decimal (n : Int) {k : PyStr} (hk : Stops k) :
    readNumber (decimal n ++ k) = some (.int n, k) := by
  rcases decimal_digits n with ⟨ds, hlead, hval, hdecimal⟩
  have hint : signedInt (decide (n < 0)) (ds.map Fin.val) = n := by
    unfold signedInt
    rw [hval]
    by_cases hneg : n < 0
    · simp only [hneg, decide_true, if_true]
      omega
    · simp only [hneg, decide_false, Bool.false_eq_true, if_false]
      omega
  rw [hdecimal, List.append_assoc]
  simp only [readNumber, readSign_map _ hlead, readWhole_map hlead hk.digit,
    readFrac_stops hk.point, readExponent_stops hk, and_self, if_true, hint]

/-- The value of the text of a float. -/
def FloatText.value (t : FloatText) : ℚ :=
  floatValue t.negative (t.whole.map Fin.val) (t.frac.map Fin.val)
    (t.exponent.1, t.exponent.2.map Fin.val)

theorem readExponent_text (t : FloatText) {k : PyStr} (hk : Stops k) :
    ∃ negative, readExponent (t.exponentText ++ k)
        = ((negative, t.exponent.2.map Fin.val), k) ∧
      (t.exponent.2 ≠ [] → negative = t.exponent.1) := by
  by_cases hexp : t.exponent.2 = []
  · refine ⟨false, ?_, fun hc => absurd hexp hc⟩
    rw [FloatText.exponentText, if_pos hexp, hexp]
    exact readExponent_stops hk
  · refine ⟨t.exponent.1, ?_, fun _ => rfl⟩
    rw [FloatText.exponentText, if_neg hexp]
    have hsign : ∀ (negative : Bool) (s : PyStr),
        readPlus ((if negative then lit "-" else lit "+") ++ s) = (negative, s) := by
      intro negative s
      cases negative with
      | true => rfl
      | false => rfl
    have hds : t.exponent.2.map Fin.val ≠ [] := fun hc => hexp (List.map_eq_nil_iff.mp hc)
    rw [show
      lit "e" ++ (if t.exponent.1 then lit "-" else lit "+") ++ t.exponent.2.map digitMark ++ k
      = (101 : CodePoint) :: ((if t.exponent.1 then lit "-" else lit "+")
        ++ (t.exponent.2.map digitMark ++ k)) from by
          simp only [List.append_assoc]
          rfl]
    rw [readExponent]
    simp only [hsign, digits_map t.exponent.2 hk.digit]
    rw [if_pos ⟨Or.inl rfl, hds⟩]

/-- The mark after the digits of a float is none of them. -/
theorem digit_after_frac (t : FloatText) {k : PyStr} (hk : Stops k) (c : CodePoint) (s : PyStr)
    (h : t.exponentText ++ k = c :: s) : digit? c = none ∧ c.val ≠ 46 := by
  unfold FloatText.exponentText at h
  split at h
  · exact ⟨hk.digit c s h, hk.point c s h⟩
  · rw [← (List.cons.inj h).1]
    decide

theorem readFrac_text (t : FloatText) {k : PyStr} (hk : Stops k) :
    readFrac (t.fracText ++ (t.exponentText ++ k)) = (t.frac.map Fin.val, t.exponentText ++ k) := by
  by_cases hfrac : t.frac = []
  · rw [FloatText.fracText, if_pos hfrac, hfrac]
    exact readFrac_stops (fun c s h => (digit_after_frac t hk c s h).2)
  · have hdigits := digits_map t.frac (fun c s h => (digit_after_frac t hk c s h).1)
    have hne : t.frac.map Fin.val ≠ [] := fun hc => hfrac (List.map_eq_nil_iff.mp hc)
    rw [FloatText.fracText, if_neg hfrac, List.append_assoc]
    rw [show lit "." ++ (t.frac.map digitMark ++ (t.exponentText ++ k))
      = (46 : CodePoint) :: (t.frac.map digitMark ++ (t.exponentText ++ k)) from rfl]
    rw [readFrac, hdigits, if_pos ⟨rfl, hne⟩]

theorem digit_after_whole (t : FloatText) {k : PyStr} (hk : Stops k) (c : CodePoint) (s : PyStr)
    (h : t.fracText ++ (t.exponentText ++ k) = c :: s) : digit? c = none := by
  unfold FloatText.fracText at h
  split at h
  · exact (digit_after_frac t hk c s h).1
  · rw [← (List.cons.inj h).1]
    decide

theorem readNumber_text (t : FloatText) {k : PyStr} (hk : Stops k) :
    readNumber (t.text ++ k) = some (.float t.value, k) := by
  rcases readExponent_text t hk with ⟨negative, hread, hneg⟩
  have hfloat : ¬ (t.frac.map Fin.val = [] ∧ t.exponent.2.map Fin.val = []) := by
    rw [List.map_eq_nil_iff, List.map_eq_nil_iff, not_and_or]
    exact t.float_ok
  -- Without digits the sign of the exponent does not count.
  have hvalue : signedInt negative (t.exponent.2.map Fin.val)
      = signedInt t.exponent.1 (t.exponent.2.map Fin.val) := by
    by_cases hexp : t.exponent.2 = []
    · rw [hexp]
      cases negative with
      | true => cases t.exponent.1 with
        | true => rfl
        | false => rfl
      | false => cases t.exponent.1 with
        | true => rfl
        | false => rfl
    · rw [hneg hexp]
  have htext : t.text ++ k = minusMark t.negative
      ++ (t.whole.map digitMark ++ (t.fracText ++ (t.exponentText ++ k))) := by
    simp only [FloatText.text, List.append_assoc]
  rw [htext]
  simp only [readNumber, readSign_map _ t.whole_ok,
    readWhole_map t.whole_ok (fun c s h => digit_after_whole t hk c s h), readFrac_text t hk, hread,
    if_neg hfloat, FloatText.value, floatValue, hvalue]

/-! ## Values -/

section Render

variable (F : ℚ → FloatText)

mutual

/-- A value after it was written and read. -/
def reread : PyVal → PyVal
  | .none => .none
  | .bool b => .bool b
  | .int n => .int n
  | .float q => .float (F q).value
  | .str s => .str (rejoin s)
  | .list xs => .list (rereadList xs)
  | .dict kvs => .dict (collect (rereadItems kvs))

def rereadList : List PyVal → List PyVal
  | [] => []
  | x :: xs => reread x :: rereadList xs

def rereadItems : List (PyStr × PyVal) → List (PyStr × PyVal)
  | [] => []
  | (k, x) :: kvs => (rejoin k, reread x) :: rereadItems kvs

end

theorem rereadList_eq (xs : List PyVal) : rereadList F xs = xs.map (reread F) := by
  induction xs with
  | nil => rfl
  | cons x xs ih => rw [rereadList, ih, List.map_cons]

theorem rereadItems_eq (kvs : List (PyStr × PyVal)) :
    rereadItems F kvs = kvs.map (fun e => (rejoin e.1, reread F e.2)) := by
  induction kvs with
  | nil => rfl
  | cons e kvs ih => rw [rereadItems, ih, List.map_cons]

theorem skipBlanks_newline (depth : Nat) (s : PyStr) :
    skipBlanks (newline depth ++ s) = skipBlanks s := by
  have hblanks : ∀ n, skipBlanks (List.replicate n 32 ++ s) = skipBlanks s := by
    intro n
    induction n with
    | zero => rfl
    | succ n ih => exact ih
  exact hblanks (2 * depth)

theorem expect_newline (mark : CodePoint) (depth : Nat) (s : PyStr) :
    expect mark (newline depth ++ s) = expect mark s := by
  unfold expect
  rw [skipBlanks_newline]

theorem expect_self {mark : CodePoint} (h : isBlank mark = false) (s : PyStr) :
    expect mark (mark :: s) = some s := by
  simp only [expect, skipBlanks, List.dropWhile_cons, h, Bool.false_eq_true, if_false, if_true]

theorem expect_ne {mark c : CodePoint} (hc : isBlank c = false) (hne : c ≠ mark) (s : PyStr) :
    expect mark (c :: s) = none := by
  simp only [expect, skipBlanks, List.dropWhile_cons, hc, Bool.false_eq_true, if_false, if_neg hne]

/-- A mark that can start a value. -/
def StartsValue (c : CodePoint) : Prop := isBlank c = false ∧ c ≠ closeBracket

theorem starts_digits (negative : Bool) {ds : List (Fin 10)} (hds : Leading ds) (k : PyStr) :
    ∃ c t, minusMark negative ++ (ds.map digitMark ++ k) = c :: t ∧ StartsValue c := by
  have hmark : ∀ d : Fin 10, isBlank (digitMark d) = false ∧ digitMark d ≠ closeBracket := by
    decide
  cases negative with
  | true => exact ⟨45, _, rfl, by decide, by decide⟩
  | false =>
      rcases hds with rfl | ⟨d, rest, rfl, _⟩
      · exact ⟨digitMark 0, _, rfl, hmark 0⟩
      · exact ⟨digitMark d, _, rfl, hmark d⟩

/-- The text of a value starts with a mark that is no blank. -/
theorem render_starts (depth : Nat) (v : PyVal) :
    ∃ c t, render F depth v = c :: t ∧ StartsValue c := by
  cases v with
  | none => exact ⟨110, _, rfl, by decide, by decide⟩
  | bool b =>
      cases b with
      | true => exact ⟨116, _, rfl, by decide, by decide⟩
      | false => exact ⟨102, _, rfl, by decide, by decide⟩
  | int n =>
      -- A number starts with the sign or with a digit.
      rcases decimal_digits n with ⟨ds, hlead, _, htext⟩
      have hstart := starts_digits (decide (n < 0)) hlead []
      rw [List.append_nil, ← htext] at hstart
      exact hstart
  | float q =>
      have hstart := starts_digits (F q).negative (F q).whole_ok
        ((F q).fracText ++ (F q).exponentText)
      rw [show minusMark (F q).negative ++ ((F q).whole.map digitMark
        ++ ((F q).fracText ++ (F q).exponentText)) = render F depth (.float q) from by
          simp only [render, FloatText.text, List.append_assoc]] at hstart
      exact hstart
  | str s => exact ⟨quoteMark, _, rfl, by decide, by decide⟩
  | list xs =>
      cases xs with
      | nil => exact ⟨openBracket, _, rfl, by decide, by decide⟩
      | cons x xs => exact ⟨openBracket, _, rfl, by decide, by decide⟩
  | dict kvs =>
      cases kvs with
      | nil => exact ⟨openBrace, _, rfl, by decide, by decide⟩
      | cons e kvs => exact ⟨openBrace, _, rfl, by decide, by decide⟩

theorem skipBlanks_render (depth : Nat) (v : PyVal) (k : PyStr) :
    skipBlanks (newline depth ++ (render F depth v ++ k)) = render F depth v ++ k := by
  rcases render_starts F depth v with ⟨c, t, htext, hc, _⟩
  rw [skipBlanks_newline, htext, List.cons_append, skipBlanks, List.dropWhile_cons, hc]
  rfl

/-- The text of a value has a first mark, so there is a call left to read it. -/
theorem exists_call {depth n : Nat} {v : PyVal} (h : (render F depth v).length ≤ n) :
    ∃ m, n = m + 1 := by
  rcases render_starts F depth v with ⟨c, t, htext, _⟩
  rw [htext, List.length_cons] at h
  exact ⟨n - 1, by omega⟩

/-- The decoder reads the text of the value up to its end. -/
def ReadsBack (depth : Nat) (v : PyVal) : Prop :=
  ∀ n k, Stops k → (render F depth v).length ≤ n →
    readValue n (render F depth v ++ k) = some (reread F v, k)

theorem stops_newline (depth : Nat) (k : PyStr) : Stops (newline depth ++ k) :=
  Stops.cons _ (by decide)

/-- What follows an element ends it, whether it is the last one or not. -/
theorem stops_rest (depth outer : Nat) (xs : List PyVal) (k : PyStr) :
    Stops (renderRest F depth xs ++ (newline outer ++ k)) := by
  cases xs with
  | nil => exact stops_newline outer k
  | cons x xs => exact Stops.cons _ (by decide)

theorem stops_items (depth outer : Nat) (kvs : List (PyStr × PyVal)) (k : PyStr) :
    Stops (renderItems F depth kvs ++ (newline outer ++ k)) := by
  cases kvs with
  | nil => exact stops_newline outer k
  | cons e kvs => exact Stops.cons _ (by decide)

/-- One element is read, and then the mark after it decides. -/
theorem readElements_step (depth : Nat) (x : PyVal) (hx : ReadsBack F depth x) (n : Nat)
    (tail : PyStr) (ht : Stops tail) (hn : (render F depth x).length ≤ n) :
    readElements (n + 1) (newline depth ++ (render F depth x ++ tail)) =
      match expect closeBracket tail with
      | some s => some ([reread F x], s)
      | none => (expect comma tail).bind (fun s =>
        (readElements n s).map (fun rest => (reread F x :: rest.1, rest.2))) := by
  rw [readElements, skipBlanks_render, hx n tail ht hn]
  rfl

theorem readElements_render (depth outer : Nat) (x : PyVal) (xs : List PyVal)
    (h : ∀ y ∈ x :: xs, ReadsBack F depth y) (n : Nat) (k : PyStr)
    (hn : (render F depth x).length + (renderRest F depth xs).length < n) :
    readElements n (newline depth ++ (render F depth x ++ (renderRest F depth xs
        ++ (newline outer ++ closeBracket :: k))))
      = some (reread F x :: rereadList F xs, k) := by
  induction xs generalizing x n with
  | nil =>
      obtain ⟨m, rfl⟩ : ∃ m, n = m + 1 := ⟨n - 1, by omega⟩
      rw [readElements_step F depth x (h x (List.mem_cons_self ..)) m _
        (stops_rest F depth outer [] _) (by omega)]
      simp only [renderRest, List.nil_append, expect_newline,
        expect_self (show isBlank closeBracket = false by decide), rereadList]
  | cons y ys ih =>
      obtain ⟨m, rfl⟩ : ∃ m, n = m + 1 := ⟨n - 1, by omega⟩
      have hlen : (renderRest F depth (y :: ys)).length
          = 1 + (newline depth).length + (render F depth y).length
            + (renderRest F depth ys).length := by
        simp only [renderRest, List.length_cons, List.length_append]
        omega
      have hrest := ih y (fun z hz => h z (List.mem_cons_of_mem _ hz)) m (by omega)
      rw [readElements_step F depth x (h x (List.mem_cons_self ..)) m _
        (stops_rest F depth outer (y :: ys) _) (by omega)]
      simp only [renderRest, List.cons_append, List.append_assoc,
        expect_ne (show isBlank comma = false by decide) (show comma ≠ closeBracket by decide),
        expect_self (show isBlank comma = false by decide), Option.bind_some, hrest,
        Option.map_some, rereadList]

theorem skipBlanks_space (depth : Nat) (v : PyVal) (k : PyStr) :
    skipBlanks (32 :: (render F depth v ++ k)) = render F depth v ++ k := by
  have hspace : skipBlanks (32 :: (render F depth v ++ k))
      = skipBlanks (newline depth ++ (render F depth v ++ k)) := by
    rw [skipBlanks_newline]
    rfl
  rw [hspace, skipBlanks_render]

/-- One item is read, and then the mark after it decides. -/
theorem readMembers_step (depth : Nat) (key : PyStr) (x : PyVal) (hx : ReadsBack F depth x)
    (n : Nat) (tail : PyStr) (ht : Stops tail) (hn : (render F depth x).length ≤ n) :
    readMembers (n + 1) (newline depth ++
      (quote key ++ (colon :: 32 :: (render F depth x ++ tail))))
      = match expect closeBrace tail with
      | some s => some ([(rejoin key, reread F x)], s)
      | none => (expect comma tail).bind (fun s =>
        (readMembers n s).map (fun rest => ((rejoin key, reread F x) :: rest.1, rest.2))) := by
  have hquote : ∀ t : PyStr, expect quoteMark (newline depth ++ (quote key ++ t))
      = some (key.flatMap escape ++ quoteMark :: t) := by
    intro t
    rw [expect_newline, quote, List.cons_append, expect_self (by decide), List.append_assoc]
    rfl
  rw [readMembers, hquote]
  cases hclose : expect closeBrace tail with
  | some s =>
      simp only [Option.bind_some, readString_quote,
        expect_self (show isBlank colon = false by decide), skipBlanks_space, hx n tail ht hn,
        hclose]
  | none =>
      simp only [Option.bind_some, readString_quote,
        expect_self (show isBlank colon = false by decide), skipBlanks_space, hx n tail ht hn,
        hclose]

theorem readMembers_render (depth outer : Nat) (key : PyStr) (x : PyVal)
    (kvs : List (PyStr × PyVal)) (h : ∀ e ∈ (key, x) :: kvs, ReadsBack F depth e.2) (n : Nat)
    (k : PyStr) (hn : (render F depth x).length + (renderItems F depth kvs).length < n) :
    readMembers n (newline depth ++ (quote key ++ (colon :: 32 :: (render F depth x
        ++ (renderItems F depth kvs ++ (newline outer ++ closeBrace :: k))))))
      = some ((rejoin key, reread F x) :: rereadItems F kvs, k) := by
  induction kvs generalizing key x n with
  | nil =>
      obtain ⟨m, rfl⟩ : ∃ m, n = m + 1 := ⟨n - 1, by omega⟩
      rw [readMembers_step F depth key x (h _ (List.mem_cons_self ..)) m _
        (stops_items F depth outer [] _) (by omega)]
      simp only [renderItems, List.nil_append, expect_newline,
        expect_self (show isBlank closeBrace = false by decide), rereadItems]
  | cons e kvs ih =>
      rcases e with ⟨key', y⟩
      obtain ⟨m, rfl⟩ : ∃ m, n = m + 1 := ⟨n - 1, by omega⟩
      have hlen : (renderItems F depth ((key', y) :: kvs)).length
          = 3 + (newline depth).length + (quote key').length + (render F depth y).length
            + (renderItems F depth kvs).length := by
        simp only [renderItems, List.length_cons, List.length_append, List.length_nil]
        omega
      have hrest := ih key' y (fun z hz => h z (List.mem_cons_of_mem _ hz)) m (by omega)
      rw [readMembers_step F depth key x (h _ (List.mem_cons_self ..)) m _
        (stops_items F depth outer ((key', y) :: kvs) _) (by omega)]
      simp only [renderItems, List.cons_append, List.nil_append, List.append_assoc,
        expect_ne (show isBlank comma = false by decide) (show comma ≠ closeBrace by decide),
        expect_self (show isBlank comma = false by decide), Option.bind_some, hrest,
        Option.map_some, rereadItems]

/-- A text that starts with a digit or a minus sign is read as a number. -/
theorem readValue_number (negative : Bool) {ds : List (Fin 10)} (hds : Leading ds) (n : Nat)
    (t : PyStr) : readValue (n + 1) (minusMark negative ++ (ds.map digitMark ++ t))
      = readNumber (minusMark negative ++ (ds.map digitMark ++ t)) := by
  have hmark : ∀ d : Fin 10, digitMark d ≠ quoteMark ∧ digitMark d ≠ openBrace ∧
      digitMark d ≠ openBracket ∧ (digitMark d).val ≠ 110 ∧ (digitMark d).val ≠ 116 ∧
      (digitMark d).val ≠ 102 := by decide
  cases negative with
  | true => rfl
  | false =>
      obtain ⟨d, rest, rfl⟩ : ∃ d rest, ds = d :: rest := by
        rcases hds with h | ⟨d, rest, h, _⟩
        · exact ⟨0, [], h⟩
        · exact ⟨d, rest, h⟩
      rcases hmark d with ⟨h₁, h₂, h₃, h₄, h₅, h₆⟩
      simp only [minusMark, Bool.false_eq_true, if_false, List.nil_append, List.map_cons,
        List.cons_append, readValue, if_neg h₁, if_neg h₂, if_neg h₃, if_neg h₄, if_neg h₅,
        if_neg h₆]

theorem readValue_quote (n : Nat) (s k : PyStr) :
    readValue (n + 1) (quote s ++ k) = some (.str (rejoin s), k) := by
  rw [quote, List.cons_append, List.append_assoc, readValue, if_pos rfl, List.singleton_append,
    readString_quote]
  rfl

theorem readsBack_list (depth : Nat) (xs : List PyVal) (h : ∀ x ∈ xs, ∀ d, ReadsBack F d x) :
    ReadsBack F depth (.list xs) := by
  intro n k _ hn
  cases xs with
  | nil =>
      obtain ⟨m, rfl⟩ := exists_call F hn
      rfl
  | cons x xs =>
      rw [render] at hn ⊢
      simp only [List.length_cons, List.length_append] at hn
      obtain ⟨m, rfl⟩ : ∃ m, n = m + 1 := ⟨n - 1, by omega⟩
      have hread :=
        readElements_render F (depth + 1) depth x xs (fun y hy => h y hy _) m k (by omega)
      rcases render_starts F (depth + 1) x with ⟨c, t, htext, hc, hne⟩
      have hopen : expect closeBracket (newline (depth + 1) ++ (render F (depth + 1) x
          ++ (renderRest F (depth + 1) xs ++ (newline depth ++ closeBracket :: k)))) = none := by
        rw [expect_newline, htext, List.cons_append, expect_ne hc hne]
      simp only [List.cons_append, List.append_assoc, List.nil_append, readValue,
        if_neg (show ¬ openBracket = quoteMark by decide),
        if_neg (show ¬ openBracket = openBrace by decide), if_true, hopen, hread, Option.map_some,
        reread, rereadList]

theorem readsBack_dict (depth : Nat) (kvs : List (PyStr × PyVal))
    (h : ∀ e ∈ kvs, ∀ d, ReadsBack F d e.2) : ReadsBack F depth (.dict kvs) := by
  intro n k _ hn
  cases kvs with
  | nil =>
      obtain ⟨m, rfl⟩ := exists_call F hn
      rfl
  | cons e kvs =>
      rcases e with ⟨key, x⟩
      rw [render] at hn ⊢
      simp only [List.length_cons, List.length_append] at hn
      obtain ⟨m, rfl⟩ : ∃ m, n = m + 1 := ⟨n - 1, by omega⟩
      have hread := readMembers_render F (depth + 1) depth key x kvs (fun y hy => h y hy _) m k
        (by omega)
      have hopen : expect closeBrace (newline (depth + 1) ++ (quote key ++ (colon :: 32
          :: (render F (depth + 1) x ++ (renderItems F (depth + 1) kvs
            ++ (newline depth ++ closeBrace :: k)))))) = none := by
        rw [expect_newline, quote, List.cons_append, expect_ne (by decide) (by decide)]
      simp only [List.cons_append, List.append_assoc, List.nil_append, readValue,
        if_neg (show ¬ openBrace = quoteMark by decide), if_true, hopen, hread, Option.map_some,
        reread, rereadItems]

/-- The decoder reads the text of a value up to its end, whatever follows that
    does not continue a number. The induction is on the nesting. -/
theorem readValue_render (depth : Nat) (v : PyVal) : ReadsBack F depth v := by
  -- Induction on the value, at every depth of indentation.
  induction v using PyVal.induct generalizing depth with
  | none =>
      intro n k hk hn
      obtain ⟨m, rfl⟩ := exists_call F hn
      rfl
  | bool b =>
      intro n k hk hn
      obtain ⟨m, rfl⟩ := exists_call F hn
      cases b with
      | true => rfl
      | false => rfl
  | int i =>
      intro n k hk hn
      obtain ⟨m, rfl⟩ := exists_call F hn
      rcases decimal_digits i with ⟨ds, hlead, _, htext⟩
      have hnumber := readNumber_decimal i hk
      rw [render, reread, ← hnumber, htext, List.append_assoc]
      exact readValue_number _ hlead m k
  | float q =>
      intro n k hk hn
      obtain ⟨m, rfl⟩ := exists_call F hn
      have hnumber := readNumber_text (F q) hk
      rw [render, reread, ← hnumber]
      simp only [FloatText.text, List.append_assoc]
      exact readValue_number _ (F q).whole_ok m _
  | str s =>
      intro n k hk hn
      obtain ⟨m, rfl⟩ := exists_call F hn
      exact readValue_quote m s k
  | list xs ih => exact readsBack_list F depth xs ih
  | dict kvs ih => exact readsBack_dict F depth kvs ih

/-! ## Whole texts -/

theorem skipBlanks_dumps (v : PyVal) : skipBlanks (dumps F v) = dumps F v := by
  rcases render_starts F 0 v with ⟨c, t, htext, hc, _⟩
  rw [dumps, htext, skipBlanks, List.dropWhile_cons, hc]
  rfl

theorem readValue_dumps (v : PyVal) (n : Nat) (hn : (dumps F v).length ≤ n) :
    readValue n (dumps F v) = some (reread F v, []) := by
  have hread := readValue_render F 0 v n [] (fun c t h => (nomatch h)) hn
  rw [List.append_nil] at hread
  exact hread

theorem loads_dumps (v : PyVal) : loads (dumps F v) = some (reread F v) := by
  rw [loads, skipBlanks_dumps, readValue_dumps F v _ (by omega)]
  rfl

/-- A part of the text of an object is not the text of a value: what would be
    read from the part would be read from the whole, with the rest left over. -/
theorem loads_cut (kvs : List (PyStr × PyVal)) {s q : PyStr} (h : s ++ q = dumps F (.dict kvs))
    (hq : q ≠ []) : loads s = none := by
  obtain ⟨t, htext⟩ : ∃ t, dumps F (.dict kvs) = openBrace :: t := by
    cases kvs with
    | nil => exact ⟨_, rfl⟩
    | cons e kvs => exact ⟨_, rfl⟩
  cases s with
  | nil => rfl
  | cons c s =>
      have hc : c = openBrace := by
        rw [htext, List.cons_append] at h
        exact (List.cons.inj h).1
      have hblanks : skipBlanks (c :: s) = c :: s := by
        rw [hc]
        rfl
      unfold loads
      rw [hblanks]
      cases hread : readValue ((c :: s).length + 1) (c :: s) with
      | none => rfl
      | some r =>
          rcases r with ⟨v, rest⟩
          have hmore := (read_append _ ((dumps F (.dict kvs)).length + (c :: s).length + 1)
            (by omega)).value (c :: s) v rest q hread (Or.inl (by rw [hc]; rfl))
          rw [h, readValue_dumps F _ _ (by omega), Option.some.injEq, Prod.mk.injEq] at hmore
          exact absurd (List.append_eq_nil_iff.mp hmore.2.symm).2 hq

/-! ## Values that survive -/

/-- No two characters next to each other are the halves of a surrogate pair. -/
def Joined (s : PyStr) : Prop := s.IsChain (fun c d => ¬ (isHigh c = true ∧ isLow d = true))

instance (s : PyStr) : Decidable (Joined s) := inferInstanceAs (Decidable (List.IsChain _ s))

/-- A value that the text expresses exactly. -/
inductive Plain : PyVal → Prop
  | none : Plain .none
  | bool (b : Bool) : Plain (.bool b)
  | int (n : Int) : Plain (.int n)
  | float (q : ℚ) (h : (F q).value = q) : Plain (.float q)
  | str (s : PyStr) (h : Joined s) : Plain (.str s)
  | list (xs : List PyVal) (h : ∀ x ∈ xs, Plain x) : Plain (.list xs)
  | dict (kvs : List (PyStr × PyVal)) (hnodup : (kvs.map Prod.fst).Nodup)
      (hkeys : ∀ e ∈ kvs, Joined e.1) (h : ∀ e ∈ kvs, Plain e.2) : Plain (.dict kvs)

/-- An unescaped unit is never the half of a pair. -/
theorem joinUnits_plain (c : CodePoint) (us : List (CodePoint × Bool)) :
    joinUnits ((c, false) :: us) = c :: joinUnits us := by
  cases us with
  | nil => rfl
  | cons u us => simp only [joinUnits, Bool.false_eq_true, false_and, if_false]

/-- The first unit of a character is a low surrogate only if the character is. -/
theorem head_units {c d : CodePoint} {e : Bool} {us vs : List (CodePoint × Bool)}
    (h : units c ++ us = (d, e) :: vs) : d = c ∨ isLow d = false := by
  unfold units at h
  split at h
  · exact Or.inl (congrArg Prod.fst (List.cons.inj h).1).symm
  · split at h
    · exact Or.inl (congrArg Prod.fst (List.cons.inj h).1).symm
    · split at h
      · exact Or.inl (congrArg Prod.fst (List.cons.inj h).1).symm
      · right
        have hd := congrArg Prod.fst (List.cons.inj h).1
        simp only at hd
        rw [← hd]
        have hlt := c.isLt
        simp only [isLow, Fin.ofNat, decide_eq_false_iff_not]
        omega

/-- A character is read back before units that do not pair with it. -/
theorem joinUnits_units (c : CodePoint) (us : List (CodePoint × Bool))
    (h : ∀ d e vs, us = (d, e) :: vs → ¬ (isHigh c = true ∧ isLow d = true)) :
    joinUnits (units c ++ us) = c :: joinUnits us := by
  unfold units
  split
  · exact joinUnits_plain c us
  · split
    · exact joinUnits_plain c us
    · split
      · cases us with
        | nil => rfl
        | cons u us =>
            rcases u with ⟨d, e⟩
            have hpair : ¬ (true = true ∧ e = true ∧ isHigh c = true ∧ isLow d = true) :=
              fun hc => h d e us rfl hc.2.2
            exact if_neg hpair
      · -- The two halves of a character above the sixteen bits pair up.
        have hlt := c.isLt
        have hhigh : isHigh (Fin.ofNat 0x110000 (0xD800 + (c.val - 0x10000) / 0x400)) = true := by
          simp only [isHigh, Fin.ofNat, decide_eq_true_eq]
          omega
        have hlow : isLow (Fin.ofNat 0x110000 (0xDC00 + (c.val - 0x10000) % 0x400)) = true := by
          simp only [isLow, Fin.ofNat, decide_eq_true_eq]
          omega
        have hpair : paired (Fin.ofNat 0x110000 (0xD800 + (c.val - 0x10000) / 0x400))
            (Fin.ofNat 0x110000 (0xDC00 + (c.val - 0x10000) % 0x400)) = c := by
          apply Fin.ext
          simp only [paired, Fin.ofNat]
          omega
        simp only [List.cons_append, List.nil_append, joinUnits, hhigh, hlow, and_self, if_true,
          hpair]

theorem rejoin_joined {s : PyStr} (h : Joined s) : rejoin s = s := by
  induction s with
  | nil => rfl
  | cons c s ih =>
      rcases List.isChain_cons.mp h with ⟨hnext, hs⟩
      have hrec : joinUnits (s.flatMap units) = s := ih hs
      rw [rejoin, List.flatMap_cons, joinUnits_units, hrec]
      intro d e vs hvs hpair
      cases s with
      | nil => exact (nomatch hvs)
      | cons c' s =>
          rw [List.flatMap_cons] at hvs
          rcases head_units hvs with rfl | hlow
          · exact hnext d rfl hpair
          · rw [hlow] at hpair
            exact Bool.false_ne_true hpair.2

/-- The items that are kept are some of those that were read, and there are some. -/
theorem collect_items {kvs : List (PyStr × PyVal)} :
    (∀ e ∈ collect kvs, e ∈ kvs) ∧ (kvs ≠ [] → collect kvs ≠ []) := by
  have hacc : ∀ (kvs acc : List (PyStr × PyVal)),
      (∀ e ∈ kvs.foldl (fun acc e => assign e.1 e.2 acc) acc, e ∈ acc ∨ e ∈ kvs) ∧
        (acc ≠ [] → kvs.foldl (fun acc e => assign e.1 e.2 acc) acc ≠ []) := by
    intro kvs
    induction kvs with
    | nil => exact fun acc => ⟨fun e he => Or.inl he, fun h => h⟩
    | cons e kvs ih =>
        intro acc
        rcases ih (assign e.1 e.2 acc) with ⟨hmem, hne⟩
        refine ⟨fun x hx => ?_, fun _ => hne ?_⟩
        · rcases hmem x hx with h | h
          · rcases mem_assign _ _ _ _ h with rfl | h
            · exact Or.inr (List.mem_cons_self ..)
            · exact Or.inl h
          · exact Or.inr (List.mem_cons_of_mem _ h)
        · intro hc
          have hself := lookup_assign_self e.1 e.2 acc
          rw [hc] at hself
          exact (nomatch hself)
  refine ⟨fun e he => ?_, fun hne => ?_⟩
  · rcases (hacc kvs []).1 e he with h | h
    · exact (List.not_mem_nil h).elim
    · exact h
  · cases kvs with
    | nil => exact absurd rfl hne
    | cons e kvs => exact (hacc kvs [(e.1, e.2)]).2 (List.cons_ne_nil _ _)

/-- Items under distinct keys are all kept. -/
theorem collect_nodup {kvs : List (PyStr × PyVal)} (h : (kvs.map Prod.fst).Nodup) :
    collect kvs = kvs := by
  have hacc : ∀ (kvs acc : List (PyStr × PyVal)), ((acc ++ kvs).map Prod.fst).Nodup →
      kvs.foldl (fun acc e => assign e.1 e.2 acc) acc = acc ++ kvs := by
    intro kvs
    induction kvs with
    | nil =>
        intro acc _
        rw [List.append_nil]
        rfl
    | cons e kvs ih =>
        intro acc hnodup
        have hnew : e.1 ∉ acc.map Prod.fst := by
          intro hc
          rw [List.map_append, List.nodup_append] at hnodup
          exact hnodup.2.2 e.1 hc e.1 (List.mem_cons_self ..) rfl
        rw [List.foldl_cons, assign_new e.1 e.2 acc hnew, ih]
        · rw [List.append_assoc]
          rfl
        · rw [List.append_assoc]
          exact hnodup
  exact hacc kvs [] h

theorem reread_plain {v : PyVal} (h : Plain F v) : reread F v = v := by
  induction v using PyVal.induct with
  | none => rfl
  | bool b => rfl
  | int n => rfl
  | float q =>
      cases h with
      | float _ hq => rw [reread, hq]
  | str s =>
      cases h with
      | str _ hs => rw [reread, rejoin_joined hs]
  | list xs ih =>
      cases h with
      | list _ hxs =>
          rw [reread, rereadList_eq, List.map_congr_left (fun x hx => ih x hx (hxs x hx)),
            List.map_id']
  | dict kvs ih =>
      cases h with
      | dict _ hnodup hkeys hvals =>
          have hitems : kvs.map (fun e => (rejoin e.1, reread F e.2)) = kvs.map id := by
            refine List.map_congr_left (fun e he => ?_)
            rw [rejoin_joined (hkeys e he), ih e he (hvals e he)]
            rfl
          rw [reread, rereadItems_eq, hitems, List.map_id, collect_nodup hnodup]

end Render

end Json

end WhisperNet
