import Mathlib.Data.List.TakeWhile

/-!
# The Part of a Trace Between Two Kinds of Events

Of a list of events in the order they happened, the ones from the first that
opens something up to the next that closes it. The rules say what one more event
adds: nothing before the opening or after the closing, and itself in between.

## Main definitions

* `between`: The events from the opening up to the closing.
* `Opened`, `Closed`: An opening has happened, and a closing after it.

## Theorems

* `between_snoc_unopened`: Before the opening.
* `between_snoc_open`: In between.
* `closed_snoc`: The closing.
* `between_snoc_closed`: After the closing.
-/

namespace WhisperNet

variable {ε : Type} (opens closes : ε → Bool)

/-- The events from the first opening up to the next closing. -/
def between (es : List ε) : List ε :=
  (es.dropWhile (fun e => !opens e)).takeWhile (fun e => !closes e)

/-- An opening has happened. -/
def Opened (es : List ε) : Prop := ∃ e ∈ es, opens e = true

/-- A closing has happened after an opening. -/
def Closed (es : List ε) : Prop := ∃ e ∈ es.dropWhile (fun e => !opens e), closes e = true

variable {opens closes} {es : List ε} {a : ε}

theorem dropWhile_unopened (h : ¬ Opened opens es) : es.dropWhile (fun e => !opens e) = [] := by
  rw [List.dropWhile_eq_nil_iff]
  intro e he
  rw [Bool.not_eq_true']
  exact eq_false_of_ne_true (fun hc => h ⟨e, he, hc⟩)

theorem dropWhile_opened (h : Opened opens es) (a : ε) :
    (es ++ [a]).dropWhile (fun e => !opens e) = es.dropWhile (fun e => !opens e) ++ [a] := by
  rw [List.dropWhile_append, if_neg]
  rw [List.isEmpty_iff, List.dropWhile_eq_nil_iff]
  intro hall
  rcases h with ⟨e, he, hopens⟩
  have hnot := hall e he
  rw [hopens] at hnot
  exact absurd hnot Bool.false_ne_true

/-- The first opening, or an event before it. -/
theorem between_snoc_unopened (h : ¬ Opened opens es) (ha : closes a = false) :
    between opens closes (es ++ [a]) = if opens a then [a] else [] := by
  unfold between
  rw [List.dropWhile_append, dropWhile_unopened h]
  simp only [List.isEmpty_nil, if_true]
  by_cases hopens : opens a = true
  · simp only [List.dropWhile_cons, hopens, Bool.not_true, Bool.false_eq_true, if_false, if_true,
      List.takeWhile_cons, ha, Bool.not_false, List.takeWhile_nil]
  · simp only [List.dropWhile_cons, eq_false_of_ne_true hopens, Bool.not_false, if_true,
      List.dropWhile_nil, List.takeWhile_nil, Bool.false_eq_true, if_false]

theorem takeWhile_unclosed (h : ¬ Closed opens closes es) :
    ∀ e ∈ es.dropWhile (fun e => !opens e), (!closes e) = true := by
  intro e he
  rw [Bool.not_eq_true']
  exact eq_false_of_ne_true (fun hc => h ⟨e, he, hc⟩)

/-- Between the two, an event that does not close is one more. -/
theorem between_snoc_open (hopened : Opened opens es) (hclosed : ¬ Closed opens closes es) :
    between opens closes (es ++ [a]) =
      between opens closes es ++ if closes a then [] else [a] := by
  unfold between
  rw [dropWhile_opened hopened, List.takeWhile_append_of_pos (takeWhile_unclosed hclosed),
    List.takeWhile_eq_self_iff.mpr (takeWhile_unclosed hclosed)]
  by_cases hcloses : closes a = true
  · simp only [List.takeWhile_cons, hcloses, Bool.not_true, Bool.false_eq_true, if_false, if_true]
  · simp only [List.takeWhile_cons, eq_false_of_ne_true hcloses, Bool.not_false, if_true,
      List.takeWhile_nil, Bool.false_eq_true, if_false]

theorem closed_snoc (hopened : Opened opens es) :
    Closed opens closes (es ++ [a]) ↔ Closed opens closes es ∨ closes a = true := by
  unfold Closed
  rw [dropWhile_opened hopened]
  simp only [List.mem_append, List.mem_singleton, or_and_right, exists_or, exists_eq_left]

theorem not_closed_of_unopened (h : ¬ Opened opens es) : ¬ Closed opens closes es := by
  rintro ⟨e, he, _⟩
  rw [dropWhile_unopened h] at he
  exact absurd he List.not_mem_nil

theorem opened_snoc : Opened opens (es ++ [a]) ↔ Opened opens es ∨ opens a = true := by
  unfold Opened
  simp only [List.mem_append, List.mem_singleton, or_and_right, exists_or, exists_eq_left]

theorem opened_of_closed (h : Closed opens closes es) : Opened opens es := by
  by_contra hc
  exact not_closed_of_unopened hc h

/-- After the closing, nothing more is added. -/
theorem between_snoc_closed (h : Closed opens closes es) :
    between opens closes (es ++ [a]) = between opens closes es := by
  have hopened := opened_of_closed h
  rcases h with ⟨e, he, hcloses⟩
  unfold between
  rw [dropWhile_opened hopened, List.takeWhile_append, if_neg]
  -- Else the part before the closing would be all of it.
  intro hlength
  have hall := List.takeWhile_eq_self_iff.mp
    ((List.takeWhile_prefix (fun e => !closes e)).eq_of_length hlength)
  have hnot := hall e he
  rw [hcloses] at hnot
  exact absurd hnot Bool.false_ne_true

end WhisperNet
