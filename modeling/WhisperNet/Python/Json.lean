import WhisperNet.Python.Convert
import WhisperNet.Python.Text

/-!
# JSON Text

The text `json.dump(v, f, indent=2)` writes and the decoder of `json.load`. The
writer puts every item on a line of its own and escapes all but the printable
ASCII characters. The decoder is the recursive descent of the library: a value
by its first character, the items of an array or an object up to the closing
mark, and nothing but blanks after the value.

The text of a float is the one `repr` chooses, which is left open: any text of
the right form, held as its sign, its digits and its exponent. The decoder
reads it exactly. The constants for the infinities and for NaN, the limit on
the digits of an integer and the one on the nesting are left out.

A decoder that finds no value gives `none`, whatever exception that is.

## Main definitions

* `FloatText`: The text of a float.
* `positional`: The text of a float of few digits.
* `quote`: The text of a string.
* `render`: The text of a value at a depth of nesting.
* `dumps`: The text of a value.
* `readString`, `readNumber`: The decoder on a string and on a number.
* `readValue`: The decoder on a value.
* `loads`: The decoder on a whole text.
* `numberMark`: The marks that can continue a number.

## Theorems

* `read_append`: A value that was read is read alike if more text follows it.
-/

namespace WhisperNet

namespace Json

def quoteMark : CodePoint := 34

def comma : CodePoint := 44

def colon : CodePoint := 58

def openBracket : CodePoint := 91

def backslash : CodePoint := 92

def closeBracket : CodePoint := 93

def openBrace : CodePoint := 123

def closeBrace : CodePoint := 125

/-! ## Writing -/

def digitMark (d : Fin 10) : CodePoint := Fin.ofNat 0x110000 (48 + d.val)

/-- The text of a float: digits before the point with no needless zero, the
    digits after it and the digits of an exponent, one of which is there. -/
structure FloatText where
  negative : Bool
  whole : List (Fin 10)
  frac : List (Fin 10)
  /-- the sign that is written, and the digits -/
  exponent : Bool × List (Fin 10)
  whole_ok : whole = [0] ∨ ∃ d ds, whole = d :: ds ∧ d ≠ 0
  float_ok : frac ≠ [] ∨ exponent.2 ≠ []

def minusMark (negative : Bool) : PyStr := if negative then lit "-" else []

def FloatText.fracText (t : FloatText) : PyStr :=
  if t.frac = [] then [] else lit "." ++ t.frac.map digitMark

def FloatText.exponentText (t : FloatText) : PyStr :=
  if t.exponent.2 = [] then []
  else lit "e" ++ (if t.exponent.1 then lit "-" else lit "+") ++ t.exponent.2.map digitMark

def FloatText.text (t : FloatText) : PyStr :=
  minusMark t.negative ++ t.whole.map digitMark ++ t.fracText ++ t.exponentText

/-- The digits of a natural number. -/
def wholeDigits (n : Nat) : List (Fin 10) :=
  if h : n < 10 then [⟨n, h⟩] else wholeDigits (n / 10) ++ [⟨n % 10, Nat.mod_lt n (by omega)⟩]
  termination_by n

theorem wholeDigits_ne_zero (n : Nat) (h : n ≠ 0) :
    ∃ d ds, wholeDigits n = d :: ds ∧ d ≠ 0 := by
  induction n using wholeDigits.induct with
  | case1 n hn =>
      rw [wholeDigits, dif_pos hn]
      exact ⟨⟨n, hn⟩, [], rfl, fun hc => h (congrArg Fin.val hc)⟩
  | case2 n hn ih =>
      rcases ih (by omega) with ⟨d, ds, hds, hd⟩
      rw [wholeDigits, dif_neg hn, hds]
      exact ⟨d, ds ++ [⟨n % 10, Nat.mod_lt n (by omega)⟩], rfl, hd⟩

theorem wholeDigits_leading (n : Nat) :
    wholeDigits n = [0] ∨ ∃ d ds, wholeDigits n = d :: ds ∧ d ≠ 0 := by
  by_cases hn : n = 0
  · left
    rw [hn, wholeDigits]
    rfl
  · exact Or.inr (wholeDigits_ne_zero n hn)

-- Named, so that no digit carries a proof of its own.
theorem neZero_ten : NeZero 10 := ⟨by decide⟩

attribute [local instance] neZero_ten

/-- The first digits after the point of a number below one. -/
def fracDigits : Nat → ℚ → List (Fin 10)
  | 0, _ => []
  | n + 1, r =>
    if r = 0 then [] else Fin.ofNat 10 ⌊10 * r⌋.toNat :: fracDigits n (10 * r - ⌊10 * r⌋)

/-- The text without an exponent: exact for a number with at most sixteen
    digits after the point. -/
def positional (q : ℚ) : FloatText where
  negative := q < 0
  whole := wholeDigits ⌊|q|⌋.toNat
  frac := match fracDigits 16 (|q| - ⌊|q|⌋) with
    | [] => [0]
    | d :: ds => d :: ds
  exponent := (false, [])
  whole_ok := wholeDigits_leading _
  float_ok := by
    left
    split
    · exact List.cons_ne_nil _ _
    · exact List.cons_ne_nil _ _

/-- A digit of a number below sixteen. -/
def hexDigit (n : Nat) : CodePoint := Fin.ofNat 0x110000 (if n < 10 then 48 + n else 87 + n)

/-- The escape of a sixteen-bit unit. -/
def escapeUnit (n : Nat) : PyStr :=
  [backslash, 117, hexDigit (n / 4096 % 16), hexDigit (n / 256 % 16), hexDigit (n / 16 % 16),
    hexDigit (n % 16)]

/-- The letter after the backslash of a short escape. -/
def shortEscape (c : CodePoint) : Option CodePoint :=
  if c = quoteMark then some quoteMark
  else if c = backslash then some backslash
  else if c.val = 8 then some 98
  else if c.val = 9 then some 116
  else if c.val = 10 then some 110
  else if c.val = 12 then some 102
  else if c.val = 13 then some 114
  else none

def escape (c : CodePoint) : PyStr :=
  match shortEscape c with
  | some e => [backslash, e]
  | none =>
    if 32 ≤ c.val ∧ c.val ≤ 126 then [c]
    else if c.val < 0x10000 then escapeUnit c.val
    else escapeUnit (0xD800 + (c.val - 0x10000) / 0x400)
      ++ escapeUnit (0xDC00 + (c.val - 0x10000) % 0x400)

def quote (s : PyStr) : PyStr := quoteMark :: (s.flatMap escape ++ [quoteMark])

/-- A line break, indented. -/
def newline (depth : Nat) : PyStr := 10 :: List.replicate (2 * depth) 32

variable (F : ℚ → FloatText)

mutual

/-- The text of a value; the lines of a nested one are indented. -/
def render (depth : Nat) : PyVal → PyStr
  | .none => lit "null"
  | .bool true => lit "true"
  | .bool false => lit "false"
  | .int n => decimal n
  | .float q => (F q).text
  | .str s => quote s
  | .list [] => [openBracket, closeBracket]
  | .list (x :: xs) =>
    openBracket :: (newline (depth + 1) ++ render (depth + 1) x ++ renderRest (depth + 1) xs
      ++ newline depth ++ [closeBracket])
  | .dict [] => [openBrace, closeBrace]
  | .dict ((k, x) :: kvs) =>
    openBrace :: (newline (depth + 1) ++ quote k ++ [colon, 32] ++ render (depth + 1) x
      ++ renderItems (depth + 1) kvs ++ newline depth ++ [closeBrace])

/-- The elements after the first. -/
def renderRest (depth : Nat) : List PyVal → PyStr
  | [] => []
  | x :: xs => comma :: (newline depth ++ render depth x ++ renderRest depth xs)

/-- The items after the first. -/
def renderItems (depth : Nat) : List (PyStr × PyVal) → PyStr
  | [] => []
  | (k, x) :: kvs =>
    comma :: (newline depth ++ quote k ++ [colon, 32] ++ render depth x ++ renderItems depth kvs)

end

/-- `json.dumps(v, indent=2)`. -/
def dumps (v : PyVal) : PyStr := render F 0 v

/-! ## Reading -/

def isBlank (c : CodePoint) : Bool := c.val = 32 ∨ c.val = 9 ∨ c.val = 10 ∨ c.val = 13

def skipBlanks (s : PyStr) : PyStr := s.dropWhile isBlank

/-- The text after a mark that may have blanks before it. -/
def expect (mark : CodePoint) (s : PyStr) : Option PyStr :=
  match skipBlanks s with
  | [] => none
  | c :: s => if c = mark then some s else none

/-- The text after a word. -/
def expectWord : PyStr → PyStr → Option PyStr
  | [], s => some s
  | _ :: _, [] => none
  | w :: ws, c :: s => if c = w then expectWord ws s else none

/-! ### Strings -/

def hexValue? (c : CodePoint) : Option Nat :=
  if 48 ≤ c.val ∧ c.val ≤ 57 then some (c.val - 48)
  else if 97 ≤ c.val ∧ c.val ≤ 102 then some (c.val - 87)
  else if 65 ≤ c.val ∧ c.val ≤ 70 then some (c.val - 55)
  else none

/-- The unit with four given digits. -/
def unit? (a b c d : CodePoint) : Option CodePoint :=
  match hexValue? a, hexValue? b, hexValue? c, hexValue? d with
  | some a, some b, some c, some d => some (Fin.ofNat 0x110000 (((a * 16 + b) * 16 + c) * 16 + d))
  | _, _, _, _ => none

/-- The character of a short escape. -/
def unescape (e : CodePoint) : Option CodePoint :=
  if e = quoteMark then some quoteMark
  else if e = backslash then some backslash
  else if e.val = 47 then some 47
  else if e.val = 98 then some 8
  else if e.val = 116 then some 9
  else if e.val = 110 then some 10
  else if e.val = 102 then some 12
  else if e.val = 114 then some 13
  else none

/-- The characters up to the closing quote, with the escaped units flagged. -/
def readUnits : PyStr → Option (List (CodePoint × Bool) × PyStr)
  | [] => none
  | c :: s =>
    if c = quoteMark then some ([], s)
    else if c = backslash then
      match s with
      | [] => none
      | e :: s =>
        if e = 117 then
          match s with
          | a :: b :: c :: d :: s =>
            match unit? a b c d with
            | some u => (readUnits s).map (fun r => ((u, true) :: r.1, r.2))
            | none => none
          | _ => none
        else
          match unescape e with
          | some u => (readUnits s).map (fun r => ((u, false) :: r.1, r.2))
          | none => none
    -- A control character has to be escaped.
    else if c.val < 32 then none
    else (readUnits s).map (fun r => ((c, false) :: r.1, r.2))

def isHigh (c : CodePoint) : Bool := 0xD800 ≤ c.val ∧ c.val ≤ 0xDBFF

def isLow (c : CodePoint) : Bool := 0xDC00 ≤ c.val ∧ c.val ≤ 0xDFFF

/-- The character of a surrogate pair. -/
def paired (high low : CodePoint) : CodePoint :=
  Fin.ofNat 0x110000 (0x10000 + (high.val - 0xD800) * 0x400 + (low.val - 0xDC00))

/-- Two escaped units that form a pair are one character. -/
def joinUnits : List (CodePoint × Bool) → PyStr
  | [] => []
  | [(c, _)] => [c]
  | (c, e) :: (d, f) :: us =>
    if e ∧ f ∧ isHigh c ∧ isLow d then paired c d :: joinUnits us else c :: joinUnits ((d, f) :: us)

/-- A string after its opening quote. -/
def readString (s : PyStr) : Option (PyStr × PyStr) :=
  (readUnits s).map (fun r => (joinUnits r.1, r.2))

/-! ### Numbers -/

/-- The digits a text starts with, and the rest of it. -/
def digits : PyStr → List Nat × PyStr
  | [] => ([], [])
  | c :: s => match digit? c with
    | some d => (d :: (digits s).1, (digits s).2)
    | none => ([], c :: s)

/-- A minus sign, and the text after it. -/
def readSign : PyStr → Bool × PyStr
  | [] => (false, [])
  | c :: s => if c.val = 45 then (true, s) else (false, c :: s)

/-- The digits before the point; a zero is not followed by more. -/
def readWhole : PyStr → Option (List Nat × PyStr)
  | [] => none
  | c :: s =>
    if c.val = 48 then some ([0], s)
    else if (digit? c).isSome then some (digits (c :: s)) else none

/-- The digits after the point, if there are any. -/
def readFrac : PyStr → List Nat × PyStr
  | [] => ([], [])
  | c :: s =>
    if c.val = 46 ∧ (digits s).1 ≠ [] then digits s else ([], c :: s)

/-- A sign of either kind, and the text after it. -/
def readPlus : PyStr → Bool × PyStr
  | [] => (false, [])
  | c :: s => if c.val = 43 then (false, s) else readSign (c :: s)

/-- The digits of an exponent with its sign, if there are any. -/
def readExponent : PyStr → (Bool × List Nat) × PyStr
  | [] => ((false, []), [])
  | c :: s =>
    let ds := digits (readPlus s).2
    if (c.val = 101 ∨ c.val = 69) ∧ ds.1 ≠ [] then (((readPlus s).1, ds.1), ds.2)
    else ((false, []), c :: s)

def signedInt (negative : Bool) (ds : List Nat) : Int :=
  if negative then -ofDigits ds else ofDigits ds

/-- The value of the text of a float. -/
def floatValue (negative : Bool) (whole frac : List Nat) (exponent : Bool × List Nat) : ℚ :=
  signedInt negative (whole ++ frac)
    * (10 : ℚ) ^ (signedInt exponent.1 exponent.2 - (frac.length : ℤ))

def readNumber (s : PyStr) : Option (PyVal × PyStr) :=
  match readWhole (readSign s).2 with
  | none => none
  | some (whole, s') =>
    let (frac, s') := readFrac s'
    let (exponent, s') := readExponent s'
    if frac = [] ∧ exponent.2 = [] then some (.int (signedInt (readSign s).1 whole), s')
    else some (.float (floatValue (readSign s).1 whole frac exponent), s')

/-! ### Values -/

/-- The dictionary of the items, a later one under the same key replacing the
    earlier. -/
def collect (kvs : List (PyStr × PyVal)) : List (PyStr × PyVal) :=
  kvs.foldl (fun acc e => assign e.1 e.2 acc) []

mutual

/-- A value, which starts at the first character; the number bounds the calls. -/
def readValue : Nat → PyStr → Option (PyVal × PyStr)
  | 0, _ => none
  | _ + 1, [] => none
  | n + 1, c :: s =>
    if c = quoteMark then (readString s).map (fun r => (.str r.1, r.2))
    else if c = openBrace then
      match expect closeBrace s with
      | some s => some (.dict [], s)
      | none => (readMembers n s).map (fun r => (.dict (collect r.1), r.2))
    else if c = openBracket then
      match expect closeBracket s with
      | some s => some (.list [], s)
      | none => (readElements n s).map (fun r => (.list r.1, r.2))
    else if c.val = 110 then (expectWord (lit "ull") s).map (fun s => (.none, s))
    else if c.val = 116 then (expectWord (lit "rue") s).map (fun s => (.bool true, s))
    else if c.val = 102 then (expectWord (lit "alse") s).map (fun s => (.bool false, s))
    else readNumber (c :: s)

/-- The elements of an array, up to its closing mark. -/
def readElements : Nat → PyStr → Option (List PyVal × PyStr)
  | 0, _ => none
  | n + 1, s =>
    (readValue n (skipBlanks s)).bind (fun r =>
      match expect closeBracket r.2 with
      | some s => some ([r.1], s)
      | none => (expect comma r.2).bind (fun s =>
        (readElements n s).map (fun rest => (r.1 :: rest.1, rest.2))))

/-- The items of an object, up to its closing mark. -/
def readMembers : Nat → PyStr → Option (List (PyStr × PyVal) × PyStr)
  | 0, _ => none
  | n + 1, s =>
    (expect quoteMark s).bind (fun s =>
    (readString s).bind (fun key =>
    (expect colon key.2).bind (fun s =>
    (readValue n (skipBlanks s)).bind (fun r =>
      match expect closeBrace r.2 with
      | some s => some ([(key.1, r.1)], s)
      | none => (expect comma r.2).bind (fun s =>
        (readMembers n s).map (fun rest => ((key.1, r.1) :: rest.1, rest.2)))))))

end

/-- `json.loads(s)`. -/
def loads (s : PyStr) : Option PyVal :=
  match readValue (s.length + 1) (skipBlanks s) with
  | some (v, rest) => if skipBlanks rest = [] then some v else none
  | none => none

/-! ## More text

What has been read stays as it is when text is added at the end, unless the
text ended in a number, which more digits would continue.
-/

/-- Whether a mark can stand inside a number, after its first digit. -/
def numberMark (c : CodePoint) : Bool :=
  (digit? c).isSome ∨ c.val = 46 ∨ c.val = 101 ∨ c.val = 69

theorem skipBlanks_append {s r : PyStr} {c : CodePoint} (h : skipBlanks s = c :: r) (q : PyStr) :
    skipBlanks (s ++ q) = c :: (r ++ q) := by
  unfold skipBlanks at h ⊢
  rw [List.dropWhile_append, h]
  rfl

theorem expect_append {mark : CodePoint} {s r : PyStr} (h : expect mark s = some r) (q : PyStr) :
    expect mark (s ++ q) = some (r ++ q) := by
  unfold expect at h ⊢
  cases hs : skipBlanks s with
  | nil =>
      rw [hs] at h
      exact (nomatch h)
  | cons c t =>
      rw [hs] at h
      rw [skipBlanks_append hs q]
      by_cases hc : c = mark
      · simp only [if_pos hc, Option.some.injEq] at h
        simp only [if_pos hc, h]
      · simp only [if_neg hc, reduceCtorEq] at h

/-- The mark that was found is not another one. -/
theorem expect_other {mark other : CodePoint} {s r : PyStr} (h : expect mark s = some r)
    (hne : mark ≠ other) : expect other s = none := by
  unfold expect at h ⊢
  cases hs : skipBlanks s with
  | nil => rfl
  | cons c t =>
      rw [hs] at h
      by_cases hc : c = mark
      · simp only [if_neg (fun hc' : c = other => hne (by rw [← hc, hc']))]
      · simp only [if_neg hc, reduceCtorEq] at h

theorem expectWord_append {w s r : PyStr} (h : expectWord w s = some r) (q : PyStr) :
    expectWord w (s ++ q) = some (r ++ q) := by
  induction w generalizing s with
  | nil =>
      simp only [expectWord, Option.some.injEq] at h ⊢
      rw [h]
  | cons c w ih =>
      cases s with
      | nil => exact (nomatch h)
      | cons d s =>
          by_cases hd : d = c
          · simp only [expectWord, if_pos hd, List.cons_append] at h ⊢
            exact ih h
          · simp only [expectWord, if_neg hd, reduceCtorEq] at h

theorem readUnits_quote (s : PyStr) : readUnits (quoteMark :: s) = some ([], s) := by
  rw [readUnits.eq_def]
  simp only [if_true]

theorem readUnits_unit {a b c d u : CodePoint} (s : PyStr) (h : unit? a b c d = some u) :
    readUnits (backslash :: 117 :: a :: b :: c :: d :: s) =
      (readUnits s).map (fun r => ((u, true) :: r.1, r.2)) := by
  rw [readUnits.eq_def]
  simp only [if_neg (show ¬ backslash = quoteMark by decide), if_true, h]

theorem readUnits_short {e u : CodePoint} (s : PyStr) (he : e ≠ 117) (h : unescape e = some u) :
    readUnits (backslash :: e :: s) = (readUnits s).map (fun r => ((u, false) :: r.1, r.2)) := by
  rw [readUnits.eq_def]
  simp only [if_neg (show ¬ backslash = quoteMark by decide), if_true, if_neg he, h]

theorem readUnits_plain {c : CodePoint} (s : PyStr) (hq : c ≠ quoteMark) (hb : c ≠ backslash)
    (hc : ¬ c.val < 32) :
    readUnits (c :: s) = (readUnits s).map (fun r => ((c, false) :: r.1, r.2)) := by
  rw [readUnits.eq_def]
  simp only [if_neg hq, if_neg hb, if_neg hc]

/-- One more unit in front of those that were read. -/
theorem map_units_append {s r q : PyStr} {u : CodePoint × Bool} {us : List (CodePoint × Bool)}
    (ih : ∀ us r, readUnits s = some (us, r) → readUnits (s ++ q) = some (us, r ++ q))
    (h : (readUnits s).map (fun r => (u :: r.1, r.2)) = some (us, r)) :
    (readUnits (s ++ q)).map (fun r => (u :: r.1, r.2)) = some (us, r ++ q) := by
  rcases Option.map_eq_some_iff.mp h with ⟨⟨vs, t⟩, hs, heq⟩
  simp only [Prod.mk.injEq] at heq
  rw [ih vs t hs, ← heq.1, ← heq.2]
  rfl

theorem readUnits_append {s r : PyStr} {us : List (CodePoint × Bool)}
    (h : readUnits s = some (us, r)) (q : PyStr) : readUnits (s ++ q) = some (us, r ++ q) := by
  -- Induction on the reader, which stops at the closing quote and never sees the rest.
  induction s using readUnits.induct generalizing us r with
  | case1 => exact (nomatch h)
  | case2 s =>
      rw [readUnits_quote, Option.some.injEq, Prod.mk.injEq] at h
      rw [List.cons_append, readUnits_quote, h.1, h.2]
  | case3 => exact (nomatch h)
  | case4 a b c d s u hu _ ih =>
      rw [readUnits_unit s hu] at h
      rw [show (backslash :: 117 :: a :: b :: c :: d :: s) ++ q
        = backslash :: 117 :: a :: b :: c :: d :: (s ++ q) from rfl, readUnits_unit (s ++ q) hu]
      exact map_units_append (fun us r => ih) h
  | case5 a b c d s hu hne =>
      rw [readUnits.eq_def] at h
      simp only [if_neg hne, if_true, hu, reduceCtorEq] at h
  | case6 s hs hne =>
      rw [readUnits.eq_def] at h
      simp only [if_neg hne, if_true, reduceCtorEq] at h
  | case7 e s he u hu _ ih =>
      rw [readUnits_short s he hu] at h
      rw [List.cons_append, List.cons_append, readUnits_short (s ++ q) he hu]
      exact map_units_append (fun us r => ih) h
  | case8 e s he hu hne =>
      rw [readUnits.eq_def] at h
      simp only [if_neg hne, if_true, if_neg he, hu, reduceCtorEq] at h
  | case9 c s hq hb hc =>
      rw [readUnits.eq_def] at h
      simp only [if_neg hq, if_neg hb, if_pos hc, reduceCtorEq] at h
  | case10 c s hq hb hc ih =>
      rw [readUnits_plain s hq hb hc] at h
      rw [List.cons_append, readUnits_plain (s ++ q) hq hb hc]
      exact map_units_append (fun us r => ih) h

theorem readString_append {s r t : PyStr} (h : readString s = some (t, r)) (q : PyStr) :
    readString (s ++ q) = some (t, r ++ q) := by
  rcases Option.map_eq_some_iff.mp h with ⟨⟨us, r'⟩, hs, heq⟩
  simp only [Prod.mk.injEq] at heq
  rw [readString, readUnits_append hs q, ← heq.1, ← heq.2]
  rfl

/-! ### Numbers -/

theorem digits_append {s : PyStr} (h : (digits s).2 ≠ []) (q : PyStr) :
    digits (s ++ q) = ((digits s).1, (digits s).2 ++ q) := by
  induction s with
  | nil => exact absurd rfl h
  | cons c s ih =>
      cases hd : digit? c with
      | none => simp only [List.cons_append, digits, hd]
      | some d =>
          simp only [digits, hd] at h
          simp only [List.cons_append, digits, hd, ih h]

theorem readSign_append {s : PyStr} (h : s ≠ []) (q : PyStr) :
    readSign (s ++ q) = ((readSign s).1, (readSign s).2 ++ q) := by
  cases s with
  | nil => exact absurd rfl h
  | cons c s =>
      by_cases hc : c.val = 45
      · simp only [List.cons_append, readSign, if_pos hc]
      · simp only [List.cons_append, readSign, if_neg hc]

theorem readWhole_append {s r : PyStr} {ds : List Nat} (h : readWhole s = some (ds, r))
    (hr : r ≠ []) (q : PyStr) : readWhole (s ++ q) = some (ds, r ++ q) := by
  cases s with
  | nil => exact (nomatch h)
  | cons c s =>
      rw [List.cons_append]
      by_cases hz : c.val = 48
      · simp only [readWhole, if_pos hz, Option.some.injEq, Prod.mk.injEq] at h ⊢
        exact ⟨h.1, by rw [h.2]⟩
      · by_cases hd : (digit? c).isSome = true
        · simp only [readWhole, if_neg hz, if_pos hd, Option.some.injEq] at h ⊢
          have hrest : (digits (c :: s)).2 ≠ [] := by
            rw [h]
            exact hr
          rw [← List.cons_append, digits_append hrest q, h]
        · simp only [readWhole, if_neg hz, if_neg hd, reduceCtorEq] at h

theorem readFrac_append {s r : PyStr} {c : CodePoint} (h : (readFrac s).2 = c :: r)
    (hc : c.val ≠ 46) (q : PyStr) : readFrac (s ++ q) = ((readFrac s).1, (readFrac s).2 ++ q) := by
  cases s with
  | nil => exact (nomatch h)
  | cons d s =>
      by_cases hd : d.val = 46
      · by_cases hs : (digits s).1 = []
        -- A point without digits would be left as the next mark.
        · simp only [readFrac, hs, ne_eq, not_true, and_false, if_false, List.cons.injEq] at h
          exact absurd (by rw [← h.1]; exact hd) hc
        · have hpoint : d.val = 46 ∧ (digits s).1 ≠ [] := ⟨hd, hs⟩
          simp only [readFrac, if_pos hpoint] at h
          have hrest : (digits s).2 ≠ [] := by
            rw [h]
            exact List.cons_ne_nil c r
          simp only [List.cons_append, readFrac, digits_append hrest q, if_pos hpoint]
      · simp only [readFrac, List.cons_append, hd, false_and, if_false]

theorem readPlus_append {s : PyStr} (h : s ≠ []) (q : PyStr) :
    readPlus (s ++ q) = ((readPlus s).1, (readPlus s).2 ++ q) := by
  cases s with
  | nil => exact absurd rfl h
  | cons c s =>
      by_cases hc : c.val = 43
      · simp only [List.cons_append, readPlus, if_pos hc]
      · have hsign := readSign_append (List.cons_ne_nil c s) q
        rw [List.cons_append] at hsign
        simp only [List.cons_append, readPlus, if_neg hc, hsign]

/-- What is left after the exponent starts with a mark that no digits, point or
    exponent would start with, so none of them is cut short. -/
theorem readExponent_append {s r : PyStr} {c : CodePoint} (h : (readExponent s).2 = c :: r)
    (hc : numberMark c = false) (q : PyStr) :
    readExponent (s ++ q) = ((readExponent s).1, (readExponent s).2 ++ q) := by
  have hmark : ¬ (c.val = 101 ∨ c.val = 69) := by
    simp only [numberMark, decide_eq_false_iff_not, not_or] at h hc
    omega
  cases s with
  | nil => exact (nomatch h)
  | cons d s =>
      by_cases hd : d.val = 101 ∨ d.val = 69
      · by_cases hds : (digits (readPlus s).2).1 = []
        · simp only [readExponent, hds, ne_eq, not_true, and_false, if_false, List.cons.injEq] at h
          exact absurd (by rw [← h.1]; exact hd) hmark
        · have hexp : (d.val = 101 ∨ d.val = 69) ∧ (digits (readPlus s).2).1 ≠ [] := ⟨hd, hds⟩
          simp only [readExponent, if_pos hexp] at h
          have hrest : (digits (readPlus s).2).2 ≠ [] := by
            rw [h]
            exact List.cons_ne_nil c r
          have hs : s ≠ [] := by
            rintro rfl
            exact hds rfl
          simp only [List.cons_append, readExponent, readPlus_append hs q, digits_append hrest q,
            if_pos hexp]
      · simp only [readExponent, List.cons_append, hd, false_and, if_false]

/-- Nothing is left after the parts of a number unless something was there. -/
theorem readExponent_nil {s : PyStr} (h : (readExponent s).2 ≠ []) : s ≠ [] := by
  rintro rfl
  exact h rfl

theorem readNumber_append {s r : PyStr} {v : PyVal} {c : CodePoint}
    (h : readNumber s = some (v, c :: r)) (hc : numberMark c = false) (q : PyStr) :
    readNumber (s ++ q) = some (v, c :: r ++ q) := by
  unfold readNumber at h
  cases hw : readWhole (readSign s).2 with
  | none =>
      rw [hw] at h
      exact (nomatch h)
  | some w =>
      rcases w with ⟨whole, t⟩
      rw [hw] at h
      simp only at h
      -- What is left in the end is what the exponent leaves.
      have hleft : (readExponent (readFrac t).2).2 = c :: r := by
        split at h
        · exact (Prod.mk.inj (Option.some.inj h)).2
        · exact (Prod.mk.inj (Option.some.inj h)).2
      have hexp := readExponent_append hleft hc q
      obtain ⟨d, u, hfrac⟩ : ∃ d u, (readFrac t).2 = d :: u :=
        List.exists_cons_of_ne_nil (readExponent_nil (by rw [hleft]; exact List.cons_ne_nil c r))
      have hd : d.val ≠ 46 := by
        intro hpoint
        rw [hfrac] at hleft
        have hno : ¬ (d.val = 101 ∨ d.val = 69) := by omega
        simp only [readExponent, hno, false_and, if_false, List.cons.injEq] at hleft
        simp only [numberMark, decide_eq_false_iff_not, not_or] at hc
        exact hc.2.1 (by rw [← hleft.1]; exact hpoint)
      have ht : t ≠ [] := by
        rintro rfl
        exact (nomatch hfrac)
      have hs : s ≠ [] := by
        rintro rfl
        exact (nomatch hw)
      unfold readNumber
      rw [readSign_append hs q]
      simp only [readWhole_append hw ht q, readFrac_append hfrac hd q, hexp]
      split at h
      · rename_i hint
        simp only [if_pos hint]
        rw [← (Prod.mk.inj (Option.some.inj h)).1, hleft]
      · rename_i hint
        simp only [if_neg hint]
        rw [← (Prod.mk.inj (Option.some.inj h)).1, hleft]

/-! ### Values -/

/-- A blank or a mark that was looked for ends a number. -/
theorem expect_stops {mark : CodePoint} {s r : PyStr} (h : expect mark s = some r)
    (hmark : numberMark mark = false) : ∃ c t, s = c :: t ∧ numberMark c = false := by
  cases s with
  | nil => exact (nomatch h)
  | cons c t =>
      refine ⟨c, t, rfl, ?_⟩
      by_cases hc : isBlank c = true
      · simp only [isBlank, decide_eq_true_eq] at hc
        have hdigit : digit? c = none := by
          have hrange : ¬ (48 ≤ c.val ∧ c.val ≤ 57) := by omega
          simp only [digit?, if_neg hrange]
        simp only [numberMark, hdigit, Option.isSome_none, Bool.false_eq_true, false_or,
          decide_eq_false_iff_not]
        omega
      · simp only [expect, skipBlanks, List.dropWhile_cons, if_neg hc] at h
        by_cases hm : c = mark
        · rw [hm]
          exact hmark
        · simp only [if_neg hm, reduceCtorEq] at h

/-- Whether the value at the start of `s` is over where `r` is left: it was an
    object, or a mark is left that no number has. -/
def Complete (s r : PyStr) : Prop :=
  s.head? = some openBrace ∨ ∃ c t, r = c :: t ∧ numberMark c = false

/-- What `n` calls read, `m` calls read alike before more text. -/
structure ReadsOn (n m : Nat) : Prop where
  value : ∀ s v r q, readValue n s = some (v, r) → Complete s r →
    readValue m (s ++ q) = some (v, r ++ q)
  elements : ∀ s xs r q, readElements n s = some (xs, r) →
    readElements m (s ++ q) = some (xs, r ++ q)
  members : ∀ s kvs r q, readMembers n s = some (kvs, r) →
    readMembers m (s ++ q) = some (kvs, r ++ q)

/-- A value does not start with the mark that closes an array. -/
theorem readValue_closeBracket (n : Nat) (s : PyStr) : readValue n (closeBracket :: s) = none := by
  cases n with
  | zero => rfl
  | succ n => rfl

theorem skipBlanks_of_value {n : Nat} {s : PyStr} {r : PyVal × PyStr}
    (h : readValue n (skipBlanks s) = some r) :
    ∃ c t, skipBlanks s = c :: t ∧ c ≠ closeBracket := by
  cases hs : skipBlanks s with
  | nil =>
      rw [hs] at h
      cases n with
      | zero => exact (nomatch h)
      | succ n => exact (nomatch h)
  | cons c t =>
      refine ⟨c, t, rfl, fun hc => ?_⟩
      rw [hs, hc, readValue_closeBracket] at h
      exact (nomatch h)

/-- The items of an object start with a quote. -/
theorem readMembers_quote {n : Nat} {s : PyStr} {r : List (PyStr × PyVal) × PyStr}
    (h : readMembers n s = some r) : ∃ t, expect quoteMark s = some t := by
  cases n with
  | zero => exact (nomatch h)
  | succ n =>
      rcases Option.bind_eq_some_iff.mp h with ⟨t, ht, _⟩
      exact ⟨t, ht⟩

/-- The elements of an array start with a value, so not with its closing mark. -/
theorem readElements_value {n : Nat} {s : PyStr} {r : List PyVal × PyStr}
    (h : readElements n s = some r) (q : PyStr) : expect closeBracket (s ++ q) = none := by
  cases n with
  | zero => exact (nomatch h)
  | succ n =>
      rcases Option.bind_eq_some_iff.mp h with ⟨v, hv, _⟩
      rcases skipBlanks_of_value hv with ⟨c, t, hs, hc⟩
      simp only [expect, skipBlanks_append hs q, if_neg hc]

theorem ReadsOn.value_step {n m : Nat} (ih : ReadsOn n m) {s r : PyStr} {v : PyVal}
    (h : readValue (n + 1) s = some (v, r)) (hend : Complete s r) (q : PyStr) :
    readValue (m + 1) (s ++ q) = some (v, r ++ q) := by
  cases s with
  | nil => exact (nomatch h)
  | cons c s =>
      rw [List.cons_append]
      unfold readValue at h ⊢
      by_cases hquote : c = quoteMark
      · simp only [if_pos hquote] at h ⊢
        rcases Option.map_eq_some_iff.mp h with ⟨⟨t, r'⟩, hread, heq⟩
        simp only [Prod.mk.injEq] at heq
        rw [readString_append hread q, ← heq.1, ← heq.2]
        rfl
      simp only [if_neg hquote] at h ⊢
      by_cases hbrace : c = openBrace
      · simp only [if_pos hbrace] at h ⊢
        cases hclose : expect closeBrace s with
        | some t =>
            simp only [hclose, Option.some.injEq, Prod.mk.injEq] at h
            simp only [expect_append hclose q, ← h.1, ← h.2]
        | none =>
            simp only [hclose] at h
            rcases Option.map_eq_some_iff.mp h with ⟨⟨kvs, r'⟩, hread, heq⟩
            simp only [Prod.mk.injEq] at heq
            rcases readMembers_quote hread with ⟨t, ht⟩
            simp only [expect_other (expect_append ht q) (show quoteMark ≠ closeBrace by decide),
              ih.members s kvs r' q hread, Option.map_some, heq.1, heq.2]
      simp only [if_neg hbrace] at h ⊢
      by_cases hbracket : c = openBracket
      · simp only [if_pos hbracket] at h ⊢
        cases hclose : expect closeBracket s with
        | some t =>
            simp only [hclose, Option.some.injEq, Prod.mk.injEq] at h
            simp only [expect_append hclose q, ← h.1, ← h.2]
        | none =>
            simp only [hclose] at h
            rcases Option.map_eq_some_iff.mp h with ⟨⟨xs, r'⟩, hread, heq⟩
            simp only [Prod.mk.injEq] at heq
            simp only [readElements_value hread q, ih.elements s xs r' q hread, Option.map_some,
              heq.1, heq.2]
      simp only [if_neg hbracket] at h ⊢
      -- The three words, and then what has to be a number.
      have hword : ∀ (w : PyStr) (u : PyVal), (expectWord w s).map (fun s => (u, s)) = some (v, r) →
          (expectWord w (s ++ q)).map (fun s => (u, s)) = some (v, r ++ q) := by
        intro w u hw
        rcases Option.map_eq_some_iff.mp hw with ⟨t, ht, heq⟩
        simp only [Prod.mk.injEq] at heq
        simp only [expectWord_append ht q, Option.map_some, heq.1, heq.2]
      by_cases hn : c.val = 110
      · simp only [if_pos hn] at h ⊢
        exact hword _ _ h
      simp only [if_neg hn] at h ⊢
      by_cases ht : c.val = 116
      · simp only [if_pos ht] at h ⊢
        exact hword _ _ h
      simp only [if_neg ht] at h ⊢
      by_cases hf : c.val = 102
      · simp only [if_pos hf] at h ⊢
        exact hword _ _ h
      simp only [if_neg hf] at h ⊢
      rcases hend with hhead | ⟨d, t, hr, hd⟩
      · exact absurd (Option.some.inj hhead) hbrace
      · rw [hr] at h ⊢
        exact readNumber_append h hd q

theorem ReadsOn.elements_step {n m : Nat} (ih : ReadsOn n m) {s r : PyStr} {xs : List PyVal}
    (h : readElements (n + 1) s = some (xs, r)) (q : PyStr) :
    readElements (m + 1) (s ++ q) = some (xs, r ++ q) := by
  unfold readElements at h ⊢
  rcases Option.bind_eq_some_iff.mp h with ⟨⟨v, t⟩, hv, hrest⟩
  rcases skipBlanks_of_value hv with ⟨c, u, hs, _⟩
  have hstart : skipBlanks (s ++ q) = skipBlanks s ++ q := by
    rw [skipBlanks_append hs q, hs]
    rfl
  simp only at hrest
  cases hclose : expect closeBracket t with
  | some t' =>
      have hvalue := ih.value _ v t q hv (Or.inr (expect_stops hclose (by decide)))
      simp only [hclose, Option.some.injEq, Prod.mk.injEq] at hrest
      simp only [hstart, hvalue, Option.bind_some, expect_append hclose q, hrest.1, hrest.2]
  | none =>
      simp only [hclose] at hrest
      rcases Option.bind_eq_some_iff.mp hrest with ⟨t', hcomma, hmap⟩
      rcases Option.map_eq_some_iff.mp hmap with ⟨⟨ys, r'⟩, hys, heq⟩
      simp only [Prod.mk.injEq] at heq
      have hvalue := ih.value _ v t q hv (Or.inr (expect_stops hcomma (by decide)))
      have hcomma' := expect_append hcomma q
      simp only [hstart, hvalue, Option.bind_some, hcomma', ih.elements t' ys r' q hys,
        expect_other hcomma' (show comma ≠ closeBracket by decide), Option.map_some, heq.1, heq.2]

theorem ReadsOn.members_step {n m : Nat} (ih : ReadsOn n m) {s r : PyStr}
    {kvs : List (PyStr × PyVal)} (h : readMembers (n + 1) s = some (kvs, r)) (q : PyStr) :
    readMembers (m + 1) (s ++ q) = some (kvs, r ++ q) := by
  unfold readMembers at h ⊢
  rcases Option.bind_eq_some_iff.mp h with ⟨s₁, hquote, h₁⟩
  rcases Option.bind_eq_some_iff.mp h₁ with ⟨⟨key, s₂⟩, hkey, h₂⟩
  rcases Option.bind_eq_some_iff.mp h₂ with ⟨s₃, hcolon, h₃⟩
  rcases Option.bind_eq_some_iff.mp h₃ with ⟨⟨v, t⟩, hv, hrest⟩
  rcases skipBlanks_of_value hv with ⟨c, u, hs, _⟩
  have hstart : skipBlanks (s₃ ++ q) = skipBlanks s₃ ++ q := by
    rw [skipBlanks_append hs q, hs]
    rfl
  simp only at hrest hcolon
  simp only [expect_append hquote q, Option.bind_some, readString_append hkey q,
    expect_append hcolon q, hstart]
  cases hclose : expect closeBrace t with
  | some t' =>
      have hvalue := ih.value _ v t q hv (Or.inr (expect_stops hclose (by decide)))
      simp only [hclose, Option.some.injEq, Prod.mk.injEq] at hrest
      simp only [hvalue, Option.bind_some, expect_append hclose q, hrest.1, hrest.2]
  | none =>
      simp only [hclose] at hrest
      rcases Option.bind_eq_some_iff.mp hrest with ⟨t', hcomma, hmap⟩
      rcases Option.map_eq_some_iff.mp hmap with ⟨⟨rest, r'⟩, hread, heq⟩
      simp only [Prod.mk.injEq] at heq
      have hvalue := ih.value _ v t q hv (Or.inr (expect_stops hcomma (by decide)))
      have hcomma' := expect_append hcomma q
      simp only [hvalue, Option.bind_some, hcomma', ih.members t' rest r' q hread,
        expect_other hcomma' (show comma ≠ closeBrace by decide), Option.map_some, heq.1, heq.2]

theorem read_append (n m : Nat) (h : n ≤ m) : ReadsOn n m := by
  induction n generalizing m with
  | zero =>
      exact ⟨fun _ _ _ _ h => (nomatch h), fun _ _ _ _ h => (nomatch h),
        fun _ _ _ _ h => (nomatch h)⟩
  | succ n ih =>
      obtain ⟨k, hk⟩ : ∃ k, m = k + 1 := ⟨m - 1, by omega⟩
      rw [hk]
      have hrec : ReadsOn n k := ih k (by omega)
      exact ⟨fun _ _ _ q h hend => hrec.value_step h hend q,
        fun _ _ _ q h => hrec.elements_step h q, fun _ _ _ q h => hrec.members_step h q⟩

end Json

end WhisperNet
