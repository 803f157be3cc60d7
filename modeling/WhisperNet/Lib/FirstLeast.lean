import Mathlib.Data.List.Sort

/-!
# The Head of a Stable Sort

A list sorted by a key with a stable sort starts with the first of its elements
that has the least key: what stands before that element has a greater one, what
stands behind it none that is less.

## Main definitions

* `FirstLeast`: The first element with the least key.

## Theorems

* `head?_insertionSort_cons`: The head after one insertion.
* `firstLeast_cons`: The first least element of a longer list.
* `head?_insertionSort_iff`: The head of the sorted list.
-/

namespace WhisperNet

variable {α β : Type} [LinearOrder β]

/-- The element stands in the list behind greater keys only, and before none that
    is less. -/
def FirstLeast (key : α → β) (l : List α) (x : α) : Prop :=
  ∃ before after, l = before ++ x :: after ∧ (∀ y ∈ before, key x < key y) ∧
    ∀ y ∈ after, key x ≤ key y

theorem FirstLeast.mem {key : α → β} {l : List α} {x : α} (h : FirstLeast key l x) : x ∈ l := by
  rcases h with ⟨before, after, hl, _, _⟩
  rw [hl]
  exact List.mem_append_right _ (List.mem_cons_self ..)

theorem FirstLeast.le {key : α → β} {l : List α} {x y : α} (h : FirstLeast key l x)
    (hy : y ∈ l) : key x ≤ key y := by
  rcases h with ⟨before, after, hl, hbefore, hafter⟩
  rw [hl, List.mem_append, List.mem_cons] at hy
  rcases hy with hy | hy | hy
  · exact (hbefore y hy).le
  · rw [hy]
  · exact hafter y hy

/-- An inserted element is the new head unless the old one has a smaller key. -/
theorem head?_insertionSort_cons (key : α → β) (a : α) (l : List α) :
    ((a :: l).insertionSort (fun x y => key x ≤ key y)).head? =
      match (l.insertionSort (fun x y => key x ≤ key y)).head? with
      | none => some a
      | some b => if key a ≤ key b then some a else some b := by
  rw [List.insertionSort_cons]
  cases l.insertionSort (fun x y => key x ≤ key y) with
  | nil => rfl
  | cons b m =>
      rw [List.orderedInsert_cons]
      by_cases hle : key a ≤ key b
      · simp only [if_pos hle, List.head?_cons]
      · simp only [if_neg hle, List.head?_cons]

/-- The first least element is the head if nothing in the tail has a smaller key,
    and else that of the tail. -/
theorem firstLeast_cons (key : α → β) (a : α) (l : List α) (x : α) :
    FirstLeast key (a :: l) x ↔
      (x = a ∧ ∀ y ∈ l, key a ≤ key y) ∨ (FirstLeast key l x ∧ key x < key a) := by
  constructor
  · rintro ⟨before, after, hl, hbefore, hafter⟩
    cases before with
    | nil =>
        rw [List.nil_append, List.cons.injEq] at hl
        rw [hl.1, hl.2]
        exact Or.inl ⟨rfl, hafter⟩
    | cons c before =>
        rw [List.cons_append, List.cons.injEq] at hl
        rw [hl.1]
        exact Or.inr ⟨⟨before, after, hl.2,
          fun y hy => hbefore y (List.mem_cons_of_mem _ hy), hafter⟩,
          hbefore c (List.mem_cons_self ..)⟩
  · rintro (⟨hx, hleast⟩ | ⟨⟨before, after, hl, hbefore, hafter⟩, hlt⟩)
    · rw [hx]
      exact ⟨[], l, rfl, fun y hy => (List.not_mem_nil hy).elim, hleast⟩
    · refine ⟨a :: before, after, by rw [hl, List.cons_append], fun y hy => ?_, hafter⟩
      rcases List.mem_cons.mp hy with hy | hy
      · rw [hy]
        exact hlt
      · exact hbefore y hy

theorem head?_insertionSort_iff (key : α → β) (l : List α) (x : α) :
    (l.insertionSort (fun x y => key x ≤ key y)).head? = some x ↔ FirstLeast key l x := by
  -- Induction on the list: the head is inserted into the sorted rest.
  induction l generalizing x with
  | nil =>
      constructor
      · exact fun h => (nomatch h)
      · exact fun h => (List.not_mem_nil h.mem).elim
  | cons a l ih =>
      rw [head?_insertionSort_cons, firstLeast_cons, ← ih]
      cases hhead : (l.insertionSort (fun x y => key x ≤ key y)).head? with
      | none =>
          have hnil : l = [] :=
            List.perm_nil.mp (List.head?_eq_none_iff.mp hhead ▸ (List.perm_insertionSort _ l).symm)
          rw [hnil]
          constructor
          · intro h
            exact Or.inl ⟨(Option.some.inj h).symm, fun y hy => (List.not_mem_nil hy).elim⟩
          · rintro (⟨hx, _⟩ | ⟨h, _⟩)
            · rw [hx]
            · exact (nomatch h)
      | some b =>
          have hb := (ih b).mp hhead
          by_cases hle : key a ≤ key b
          · -- Nothing is less than the inserted element.
            simp only [if_pos hle, Option.some.injEq]
            constructor
            · exact fun h => Or.inl ⟨h.symm, fun y hy => hle.trans (hb.le hy)⟩
            · rintro (⟨hx, _⟩ | ⟨hx, hlt⟩)
              · exact hx.symm
              · rw [← hx] at hlt
                exact (not_lt_of_ge hle hlt).elim
          · simp only [if_neg hle, Option.some.injEq]
            constructor
            · intro h
              rw [← h]
              exact Or.inr ⟨rfl, lt_of_not_ge hle⟩
            · rintro (⟨_, hleast⟩ | ⟨hx, _⟩)
              · exact (hle (hleast b hb.mem)).elim
              · exact hx

end WhisperNet
