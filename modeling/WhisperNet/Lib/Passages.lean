import Mathlib.Data.List.Induction

/-!
# Passages in a History

A history is the list of what was observed of something, one observation after
the other. A passage from `a` to `b` is a place where the two follow each other.
An observer that compares each observation with the one before counts these. If
some observations are only stages on the way, what there is to count are the
passages of the history without them, and the observer misses those that have a
stage in between.

`passages_le_via` says that it never counts too many, and `via_eq_iff` that over
some further observations it misses none if and only if `b` never comes up while
the history rests at a stage after `a`.

## Main definitions

* `passages`: Places where `b` follows `a`.
* `passagesVia`: The same, with the stages left out.
* `Resting`: The last observation is a stage, and the last other one is `a`.

## Theorems

* `passages_concat`: What one more observation adds.
* `passagesVia_concat_stage`, `passagesVia_concat`: The same, stages left out.
* `passages_le_via`: Every direct passage is one.
* `via_eq_iff`: When there are no others.
-/

namespace WhisperNet

section Passages

variable {α : Type}

/-- The pairs of neighbours, with one more element. -/
theorem zip_tail_concat (h : List α) (x : α) :
    (h ++ [x]).zip (h ++ [x]).tail = h.zip h.tail ++ h.getLast?.toList.map (fun y => (y, x)) := by
  induction h with
  | nil => rfl
  | cons y t ih =>
      cases t with
      | nil => rfl
      | cons z t =>
          rw [List.getLast?_cons_cons]
          simp only [List.cons_append, List.tail_cons, List.zip_cons_cons] at ih ⊢
          rw [ih]

/-- What is last and no stage is the last that is none. -/
theorem getLast?_filter_of_last {stage : α → Bool} {a : α} {h : List α} (ha : stage a = false)
    (hlast : h.getLast? = some a) : (h.filter (fun x => !stage x)).getLast? = some a := by
  rcases List.getLast?_eq_some_iff.mp hlast with ⟨pre, hpre⟩
  rw [hpre]
  simp only [List.filter_append, List.filter_cons, ha, Bool.not_false, if_true, List.filter_nil,
    List.getLast?_append, List.getLast?_singleton, Option.some_or]

variable [DecidableEq α]

/-- The number of places where `b` follows `a`. -/
def passages (a b : α) (h : List α) : Nat := (h.zip h.tail).count (a, b)

/-- The number of places where `b` follows `a` with nothing but stages in between. -/
def passagesVia (stage : α → Bool) (a b : α) (h : List α) : Nat :=
  passages a b (h.filter (fun x => !stage x))

/-- The history ends with stages after `a`. -/
def Resting (stage : α → Bool) (a : α) (h : List α) : Prop :=
  (h.filter (fun x => !stage x)).getLast? = some a ∧ h.getLast? ≠ some a

instance (stage : α → Bool) (a : α) (h : List α) : Decidable (Resting stage a h) :=
  inferInstanceAs (Decidable (_ ∧ _))

theorem passages_concat (a b : α) (h : List α) (x : α) :
    passages a b (h ++ [x]) = passages a b h + if h.getLast? = some a ∧ x = b then 1 else 0 := by
  unfold passages
  rw [zip_tail_concat, List.count_append]
  congr 1
  cases hlast : h.getLast? with
  | none => simp only [Option.toList_none, List.map_nil, List.count_nil, reduceCtorEq, false_and,
      if_false]
  | some y =>
      rw [Option.toList_some, List.map_singleton, List.count_singleton]
      simp only [Option.some.injEq, beq_iff_eq, Prod.mk.injEq]

variable {stage : α → Bool} {a b : α}

/-- A stage adds none. -/
theorem passagesVia_concat_stage (h : List α) {x : α} (hx : stage x = true) :
    passagesVia stage a b (h ++ [x]) = passagesVia stage a b h := by
  unfold passagesVia
  simp only [List.filter_append, List.filter_cons, hx, Bool.not_true, Bool.false_eq_true, if_false,
    List.filter_nil, List.append_nil]

theorem passagesVia_concat (h : List α) {x : α} (hx : stage x = false) :
    passagesVia stage a b (h ++ [x]) = passagesVia stage a b h +
      if (h.filter (fun y => !stage y)).getLast? = some a ∧ x = b then 1 else 0 := by
  unfold passagesVia
  rw [← passages_concat]
  simp only [List.filter_append, List.filter_cons, hx, Bool.not_false, if_true, List.filter_nil]

/-- What one more observation adds to either count. -/
theorem passages_step (ha : stage a = false) (hb : stage b = false) (h : List α) (x : α) :
    passagesVia stage a b (h ++ [x]) + passages a b h =
      passages a b (h ++ [x]) + passagesVia stage a b h +
        if x = b ∧ Resting stage a h then 1 else 0 := by
  rw [passages_concat]
  cases hx : stage x with
  | true =>
      -- A stage is not `b`.
      have hne : x ≠ b := by
        intro hc
        rw [hc, hb] at hx
        exact Bool.false_ne_true hx
      rw [passagesVia_concat_stage h hx, if_neg (fun hc => hne hc.2), if_neg (fun hc => hne hc.1)]
      omega
  | false =>
      rw [passagesVia_concat h hx]
      by_cases hlast : h.getLast? = some a
      · -- Then both count it.
        have hrest : ¬ Resting stage a h := fun hc => hc.2 hlast
        have hvia := getLast?_filter_of_last ha hlast
        by_cases hxb : x = b
        · rw [if_pos ⟨hvia, hxb⟩, if_pos ⟨hlast, hxb⟩, if_neg (fun hc => hrest hc.2)]
          omega
        · rw [if_neg (fun hc => hxb hc.2), if_neg (fun hc => hxb hc.2), if_neg (fun hc => hxb hc.1)]
          omega
      · have hno : ¬ (h.getLast? = some a ∧ x = b) := fun hc => hlast hc.1
        rw [if_neg hno]
        by_cases hvia : (h.filter (fun y => !stage y)).getLast? = some a ∧ x = b
        · have hrest : Resting stage a h := ⟨hvia.1, hlast⟩
          rw [if_pos hvia, if_pos ⟨hvia.2, hrest⟩]
          omega
        · rw [if_neg hvia, if_neg (fun hc => hvia ⟨hc.2.1, hc.1⟩)]
          omega

theorem passages_le_via (ha : stage a = false) (hb : stage b = false) (h : List α) :
    passages a b h ≤ passagesVia stage a b h := by
  induction h using List.reverseRecOn with
  | nil => exact Nat.le_refl _
  | append_singleton h x ih =>
      have hstep := passages_step ha hb h x
      omega

/-- Over some further observations no passage is missed if and only if `b` is none
    of them while the history rests at a stage after `a`. -/
theorem via_eq_iff (ha : stage a = false) (hb : stage b = false) (h es : List α) :
    passagesVia stage a b (h ++ es) = passages a b (h ++ es) ↔
      passagesVia stage a b h = passages a b h ∧
        ∀ pre post, es = pre ++ b :: post → ¬ Resting stage a (h ++ pre) := by
  induction es generalizing h with
  | nil =>
      simp only [List.append_nil, List.nil_eq, List.append_eq_nil_iff, List.cons_ne_nil, and_false,
        false_implies, implies_true, and_true]
  | cons x es ih =>
      rw [List.append_cons, ih]
      have hstep := passages_step ha hb h x
      have hle := passages_le_via ha hb h
      constructor
      · rintro ⟨heq, hrest⟩
        have hhead : ¬ (x = b ∧ Resting stage a h) := by
          intro hc
          rw [if_pos hc] at hstep
          omega
        rw [if_neg hhead] at hstep
        refine ⟨by omega, fun pre post hsplit => ?_⟩
        -- The observation is the next one, or one of the later ones.
        cases pre with
        | nil =>
            rw [List.nil_append, List.cons.injEq] at hsplit
            rw [List.append_nil]
            exact fun hc => hhead ⟨hsplit.1, hc⟩
        | cons y pre =>
            rw [List.cons_append, List.cons.injEq] at hsplit
            rw [List.append_cons, ← hsplit.1]
            exact hrest pre post hsplit.2
      · rintro ⟨heq, hrest⟩
        have hhead : ¬ (x = b ∧ Resting stage a h) := by
          rintro ⟨hx, hc⟩
          refine hrest [] es (by rw [hx, List.nil_append]) ?_
          rw [List.append_nil]
          exact hc
        rw [if_neg hhead] at hstep
        refine ⟨by omega, fun pre post hsplit => ?_⟩
        rw [← List.append_cons]
        exact hrest (x :: pre) post (by rw [hsplit, List.cons_append])

end Passages

end WhisperNet
