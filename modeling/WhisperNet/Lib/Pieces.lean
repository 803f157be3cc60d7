import Mathlib.Data.List.Nodup

/-!
# Pieces of a List

A list cut at every run of separators, and a list without its repetitions.

A cut has an empty piece at either end if the list begins or ends with a
separator, and no other empty ones. For a reader that skips those, nothing
matters but the `pieces` that are not empty, and these come apart wherever there
is a separator: that is `pieces_append_cons`, and everything about lists that are
joined follows from it. `distinct` keeps the first of equal elements.

## Main definitions

* `splitRuns`: The pieces between runs of separators.
* `pieces`: Those that are not empty.
* `distinct`: The first occurrences.

## Theorems

* `pieces_append_cons`: A separator divides the pieces.
* `pieces_of_free`, `pieces_join`: The pieces of what was joined.
* `not_mem_of_mem_splitOn`, `splitOn_filter`: What is between two separators.
* `nodup_distinct`, `mem_distinct`: What is kept.
* `distinct_of_nodup`, `distinct_append_of_subset`: When nothing is left out, and
  when the rest is.
-/

namespace WhisperNet

section Pieces

variable {α : Type}

/-- The pieces between runs of separators. -/
def splitRuns (sep : α → Bool) : List α → List (List α)
  | [] => [[]]
  | c :: s =>
    if sep c then
      if (s.head?.map sep).getD false then splitRuns sep s else [] :: splitRuns sep s
    else (splitRuns sep s).modifyHead (c :: ·)

/-- The pieces that are not empty. -/
def pieces (sep : α → Bool) (s : List α) : List (List α) :=
  (splitRuns sep s).filter (fun x => !x.isEmpty)

variable {sep : α → Bool}

/-- Cutting at every separator gives the same pieces, but for empty ones, and the
    same first piece. -/
theorem splitRuns_splitOnP (s : List α) :
    ∃ h t t', splitRuns sep s = h :: t ∧ s.splitOnP sep = h :: t' ∧
      t.filter (fun x => !x.isEmpty) = t'.filter (fun x => !x.isEmpty) := by
  induction s with
  | nil => exact ⟨[], [], [], rfl, List.splitOnP_nil, rfl⟩
  | cons c s ih =>
      rcases ih with ⟨h, t, t', hruns, hsplit, htail⟩
      rw [List.splitOnP_cons_eq_if_modifyHead, splitRuns, hruns, hsplit]
      by_cases hc : sep c = true
      · rw [if_pos hc, if_pos hc]
        by_cases hrun : (s.head?.map sep).getD false = true
        · -- The run goes on, so the first piece of the rest is empty.
          have hempty : h = [] := by
            cases s with
            | nil => exact absurd hrun Bool.false_ne_true
            | cons c' s =>
                have hc' : sep c' = true := hrun
                rw [List.splitOnP_cons_eq_if_modifyHead, if_pos hc'] at hsplit
                exact (List.cons.inj hsplit).1.symm
          rw [if_pos hrun, hempty]
          exact ⟨[], t, [] :: t', rfl, rfl, htail⟩
        · rw [if_neg hrun]
          refine ⟨[], h :: t, h :: t', rfl, rfl, ?_⟩
          rw [List.filter_cons, List.filter_cons, htail]
      · rw [if_neg hc, if_neg hc]
        exact ⟨c :: h, t, t', rfl, rfl, htail⟩

theorem pieces_eq_splitOnP (s : List α) :
    pieces sep s = (s.splitOnP sep).filter (fun x => !x.isEmpty) := by
  rcases @splitRuns_splitOnP α sep s with ⟨h, t, t', hruns, hsplit, htail⟩
  rw [pieces, hruns, hsplit, List.filter_cons, List.filter_cons, htail]

/-- A separator divides the pieces. -/
theorem pieces_append_cons (s t : List α) {c : α} (hc : sep c = true) :
    pieces sep (s ++ c :: t) = pieces sep s ++ pieces sep t := by
  simp only [pieces_eq_splitOnP]
  rw [List.splitOnP_append_cons s t hc, List.filter_append]

/-- What has no separators is one piece. -/
theorem pieces_of_free {s : List α} (hne : s ≠ []) (h : ∀ c ∈ s, sep c = false) :
    pieces sep s = [s] := by
  rw [pieces_eq_splitOnP, List.splitOnP_eq_singleton h]
  cases s with
  | nil => exact absurd rfl hne
  | cons c s => rfl

/-- The pieces of a joined list are the pieces of its members. -/
theorem pieces_join {c : α} (hc : sep c = true) (xs : List (List α)) :
    pieces sep ([c].intercalate xs) = xs.flatMap (pieces sep) := by
  induction xs with
  | nil => rfl
  | cons x xs ih =>
      cases xs with
      | nil => rw [List.intercalate_singleton, List.flatMap_cons, List.flatMap_nil, List.append_nil]
      | cons y ys =>
          rw [List.intercalate_cons_cons, List.append_assoc, List.singleton_append,
            pieces_append_cons _ _ hc, ih]
          exact List.flatMap_cons.symm

/-- A property of all parts that one more element in front of a part keeps. -/
theorem forall_mem_modifyHead {Q : List α → Prop} {c : α} {parts : List (List α)}
    (h : ∀ x ∈ parts, Q x) (hcons : ∀ x, Q x → Q (c :: x)) :
    ∀ x ∈ parts.modifyHead (c :: ·), Q x := by
  cases parts with
  | nil => exact h
  | cons y parts =>
      rw [List.forall_mem_cons] at h
      rw [List.modifyHead_cons, List.forall_mem_cons]
      exact ⟨hcons y h.1, h.2⟩

/-- No part between two separators has one. -/
theorem not_mem_of_mem_splitOn [DecidableEq α] {a : α} {s x : List α} (hx : x ∈ s.splitOn a) :
    a ∉ x := by
  induction s generalizing x with
  | nil =>
      rw [List.splitOn_nil, List.mem_singleton] at hx
      rw [hx]
      exact List.not_mem_nil
  | cons c s ih =>
      rw [List.splitOn_cons_eq_if_modifyHead] at hx
      split at hx
      · rcases List.mem_cons.mp hx with hnil | hmem
        · rw [hnil]
          exact List.not_mem_nil
        · exact ih hmem
      · rename_i hc
        refine forall_mem_modifyHead (fun _ => ih) (fun y hy => ?_) x hx
        rw [List.mem_cons, not_or]
        exact ⟨fun hac => hc (beq_iff_eq.mpr hac.symm), hy⟩

/-- What is between two separators is a part of the list. -/
theorem subset_of_mem_splitOn [DecidableEq α] {a : α} {s x : List α} (hx : x ∈ s.splitOn a) :
    x ⊆ s := by
  induction s generalizing x with
  | nil =>
      rw [List.splitOn_nil, List.mem_singleton] at hx
      rw [hx]
      exact List.nil_subset _
  | cons c s ih =>
      have hrest : ∀ y ∈ s.splitOn a, y ⊆ c :: s :=
        fun y hy => List.subset_cons_of_subset c (ih hy)
      rw [List.splitOn_cons_eq_if_modifyHead] at hx
      split at hx
      · rcases List.mem_cons.mp hx with hnil | hmem
        · rw [hnil]
          exact List.nil_subset _
        · exact hrest x hmem
      · refine forall_mem_modifyHead hrest (fun y hy => ?_) x hx
        exact List.cons_subset.mpr ⟨List.mem_cons_self .., hy⟩

/-- A filter that keeps the separators may go over the parts. -/
theorem splitOn_filter [DecidableEq α] {a : α} {q : α → Bool} (ha : q a = true) (s : List α) :
    (s.filter q).splitOn a = (s.splitOn a).map (List.filter q) := by
  induction s with
  | nil => rfl
  | cons c s ih =>
      rcases List.exists_cons_of_ne_nil (List.splitOn_ne_nil a s) with ⟨h, t, hsplit⟩
      rw [hsplit, List.map_cons] at ih
      by_cases hsep : c = a
      · rw [List.filter_cons, hsep, if_pos ha, List.splitOn_cons_eq_if_modifyHead,
          List.splitOn_cons_eq_if_modifyHead, if_pos (beq_self_eq_true a),
          if_pos (beq_self_eq_true a), ih, hsplit, List.map_cons, List.map_cons, List.filter_nil]
      · have hbeq : ¬ (c == a) = true := fun hc => hsep (beq_iff_eq.mp hc)
        rw [List.splitOn_cons_eq_if_modifyHead, if_neg hbeq, hsplit, List.modifyHead_cons,
          List.map_cons, List.filter_cons, List.filter_cons]
        -- The first part begins with the element, if that is kept.
        split
        · rw [List.splitOn_cons_eq_if_modifyHead, if_neg hbeq, ih, List.modifyHead_cons]
        · exact ih

/-- Nothing is lost at the front that is filtered out anyway. -/
theorem filter_dropWhile_of_imp {q : α → Bool} {s : List α}
    (h : ∀ c ∈ s, sep c = true → q c = false) : (s.dropWhile sep).filter q = s.filter q := by
  induction s with
  | nil => rfl
  | cons c s ih =>
      rw [List.forall_mem_cons] at h
      rw [List.dropWhile_cons]
      split
      · rename_i hc
        rw [ih h.2, List.filter_cons, h.1 hc]
        rfl
      · rfl

/-- A function that is not defined on the empty piece sees the pieces only. -/
theorem filterMap_pieces {β : Type} {f : List α → Option β} (hnil : f [] = none) (s : List α) :
    (pieces sep s).filterMap f = (splitRuns sep s).filterMap f := by
  rw [pieces, List.filterMap_filter]
  refine List.filterMap_congr (fun x _ => ?_)
  cases x with
  | nil => exact hnil.symm
  | cons c x => rfl

/-- No piece has a separator. -/
theorem free_of_mem_splitRuns {s x : List α} (hx : x ∈ splitRuns sep s) :
    ∀ c ∈ x, sep c = false := by
  induction s generalizing x with
  | nil =>
      rw [splitRuns, List.mem_singleton] at hx
      rw [hx]
      exact fun c hc => absurd hc List.not_mem_nil
  | cons c s ih =>
      rw [splitRuns] at hx
      split at hx
      · split at hx
        · exact ih hx
        · rcases List.mem_cons.mp hx with hnil | hmem
          · rw [hnil]
            exact fun c hc => absurd hc List.not_mem_nil
          · exact ih hmem
      · rename_i hc
        refine forall_mem_modifyHead (fun _ => ih) (fun y hy => ?_) x hx
        exact List.forall_mem_cons.mpr ⟨Bool.eq_false_iff.mpr hc, hy⟩

end Pieces

section Distinct

variable {α : Type} [DecidableEq α]

/-- Add an element that is not there yet. -/
def addNew (out : List α) (x : α) : List α := if x ∈ out then out else out ++ [x]

/-- The first occurrences of the elements. -/
def distinct (xs : List α) : List α := xs.foldl addNew []

theorem mem_addNew (out : List α) (x y : α) : y ∈ addNew out x ↔ y ∈ out ∨ y = x := by
  unfold addNew
  split
  · rename_i hx
    constructor
    · exact Or.inl
    · rintro (hy | hy)
      · exact hy
      · rw [hy]
        exact hx
  · rw [List.mem_append, List.mem_singleton]

theorem mem_foldl_addNew (out xs : List α) (y : α) :
    y ∈ xs.foldl addNew out ↔ y ∈ out ∨ y ∈ xs := by
  induction xs generalizing out with
  | nil => simp only [List.foldl_nil, List.not_mem_nil, or_false]
  | cons x xs ih => rw [List.foldl_cons, ih, mem_addNew, List.mem_cons, or_assoc]

theorem mem_distinct (xs : List α) (y : α) : y ∈ distinct xs ↔ y ∈ xs := by
  rw [distinct, mem_foldl_addNew]
  simp only [List.not_mem_nil, false_or]

theorem nodup_foldl_addNew {out : List α} (h : out.Nodup) (xs : List α) :
    (xs.foldl addNew out).Nodup := by
  induction xs generalizing out with
  | nil => exact h
  | cons x xs ih =>
      refine ih ?_
      unfold addNew
      split
      · exact h
      · rename_i hx
        rw [List.nodup_append]
        refine ⟨h, List.nodup_singleton x, fun a ha b hb hab => hx ?_⟩
        rw [← List.mem_singleton.mp hb, ← hab]
        exact ha

theorem nodup_distinct (xs : List α) : (distinct xs).Nodup := nodup_foldl_addNew List.nodup_nil xs

/-- What is there already adds nothing. -/
theorem foldl_addNew_of_subset {out xs : List α} (h : xs ⊆ out) : xs.foldl addNew out = out := by
  induction xs with
  | nil => rfl
  | cons x xs ih =>
      rw [List.cons_subset] at h
      rw [List.foldl_cons, addNew, if_pos h.1, ih h.2]

theorem distinct_append_of_subset {xs ys : List α} (h : ys ⊆ xs) :
    distinct (xs ++ ys) = distinct xs := by
  unfold distinct
  rw [List.foldl_append]
  exact foldl_addNew_of_subset (fun y hy => (mem_distinct xs y).mpr (h hy))

/-- A list without repetitions is kept as it is. -/
theorem foldl_addNew_of_nodup {out xs : List α} (h : (out ++ xs).Nodup) :
    xs.foldl addNew out = out ++ xs := by
  induction xs generalizing out with
  | nil => rw [List.foldl_nil, List.append_nil]
  | cons x xs ih =>
      have hx : x ∉ out := by
        intro hmem
        exact (List.nodup_append.mp h).2.2 x hmem x (List.mem_cons_self ..) rfl
      rw [List.foldl_cons, addNew, if_neg hx, ih (by rw [← List.append_cons]; exact h),
        ← List.append_cons]

theorem distinct_of_nodup {xs : List α} (h : xs.Nodup) : distinct xs = xs :=
  @foldl_addNew_of_nodup α _ [] xs h

theorem distinct_eq_nil_iff (xs : List α) : distinct xs = [] ↔ xs = [] := by
  simp only [List.eq_nil_iff_forall_not_mem, mem_distinct]

end Distinct

end WhisperNet
