import Mathlib.Order.Basic
import Mathlib.Data.List.MinMax
import Mathlib.Data.List.Perm.Basic
import Mathlib.Data.List.Perm.Lattice
import WhisperNet.Lib.Contest

/-!
# Sticky Maximum

A register that keeps the record of highest rank it has seen, until a record
that is final arrives, which it keeps forever. Ties go to the record that was
there first. Folding the register over a list of records gives `outcome`.

The register is not a join. What it ends with depends on the order of the
records whenever there is a tie to break: two different final records, or, if
none is final, two different records of the highest rank. `outcome_perm_iff`
says that these are the only ways the order can matter.

## Main definitions

* `stick`: The register after one more record.
* `outcome`: The register after a list of records.
* `Decisive`: There is no tie to break.
* `AtLeast`: A register that holds the one record has no use for the other.

## Theorems

* `foldl_stick_final`: A register that holds a final record keeps it.
* `outcome_spec`: With a final record in the list, the outcome is one, and
  otherwise it is one of the highest rank.
* `outcome_cons_of_final`, `outcome_cons_of_max`: Coming first is enough.
* `outcome_perm_iff`: The outcome is the same in every order exactly when the
  list is decisive.
* `foldl_stick_rel`: Two registers over related records.
* `outcome_eq`: The first final record, or the earliest of the highest rank.
* `decisive_of_nodup`: Different ranks and one final record leave no tie.
* `atLeast_stick`, `stick_atLeast`, `stick_of_atLeast`: What a register has left behind does not
  come back.
-/

namespace WhisperNet

namespace StickyMax

variable {α ρ : Type} [LinearOrder ρ] (final : α → Prop) [DecidablePred final] (rank : α → ρ)

/-- The register after one more record. -/
def stick (held : Option α) (x : α) : Option α :=
  match held with
  | none => some x
  | some y => if final y then some y
    else if rank y < rank x ∨ final x then some x else some y

/-- The register after a list of records, empty at first. -/
def outcome (xs : List α) : Option α := xs.foldl (stick final rank) none

/-- All final records are equal, and without one all records of the highest
    rank are. -/
structure Decisive (xs : List α) : Prop where
  final_unique : ∀ x ∈ xs, ∀ y ∈ xs, final x → final y → x = y
  max_unique : (∀ x ∈ xs, ¬ final x) → ∀ x ∈ xs, ∀ y ∈ xs,
    (∀ z ∈ xs, rank z ≤ rank x) → (∀ z ∈ xs, rank z ≤ rank y) → x = y

/-- `y` is final, or ranks no lower than `x`. -/
def AtLeast (x y : α) : Prop := final y ∨ rank x ≤ rank y

theorem foldl_stick_final (xs : List α) (y : α) (hy : final y) :
    xs.foldl (stick final rank) (some y) = some y := by
  induction xs with
  | nil => rfl
  | cons x xs ih =>
      have hkeep : stick final rank (some y) x = some y := by
        simp only [stick, if_pos hy]
      rw [List.foldl_cons, hkeep, ih]

/-- A register that holds `y` ends with a final record, if there is one to
    come, and otherwise with the highest rank among `y` and what comes. -/
theorem foldl_stick_some (xs : List α) (y : α) (hy : ¬ final y) :
    ∃ z, xs.foldl (stick final rank) (some y) = some z ∧ (z = y ∨ z ∈ xs) ∧
      ((∃ x ∈ xs, final x) → final z) ∧
      ((∀ x ∈ xs, ¬ final x) → rank y ≤ rank z ∧ ∀ x ∈ xs, rank x ≤ rank z) := by
  -- Induction on the entries, over what the register holds.
  induction xs generalizing y with
  | nil =>
      refine ⟨y, rfl, Or.inl rfl, ?_, fun _ => ⟨le_refl _, ?_⟩⟩
      · rintro ⟨x, hx, _⟩
        exact absurd hx List.not_mem_nil
      · exact fun x hx => absurd hx List.not_mem_nil
  | cons x xs ih =>
      rw [List.foldl_cons]
      by_cases hx : final x
      · -- The register takes `x` and keeps it.
        have htake : stick final rank (some y) x = some x := by
          simp only [stick, if_neg hy, if_pos (Or.inr hx : rank y < rank x ∨ final x)]
        refine ⟨x, ?_, Or.inr (List.mem_cons_self ..), fun _ => hx, fun hnone => ?_⟩
        · rw [htake, foldl_stick_final final rank xs x hx]
        · exact absurd hx (hnone x (List.mem_cons_self ..))
      · -- The register holds the higher of the two, and goes on with it.
        have hnext : ∃ w, stick final rank (some y) x = some w ∧ ¬ final w ∧ (w = y ∨ w = x) ∧
            rank y ≤ rank w ∧ rank x ≤ rank w := by
          by_cases hlt : rank y < rank x
          · refine ⟨x, ?_, hx, Or.inr rfl, le_of_lt hlt, le_refl _⟩
            simp only [stick, if_neg hy, if_pos (Or.inl hlt : rank y < rank x ∨ final x)]
          · refine ⟨y, ?_, hy, Or.inl rfl, le_refl _, not_lt.mp hlt⟩
            simp only [stick, if_neg hy, hlt, hx, or_self, if_false]
        rcases hnext with ⟨w, hw, hfw, hwxy, hyw, hxw⟩
        rcases ih w hfw with ⟨z, hz, hmem, hfin, hmax⟩
        refine ⟨z, by rw [hw, hz], ?_, ?_, ?_⟩
        · rcases hmem with rfl | hmem
          · rcases hwxy with rfl | rfl
            · exact Or.inl rfl
            · exact Or.inr (List.mem_cons_self ..)
          · exact Or.inr (List.mem_cons_of_mem _ hmem)
        · rintro ⟨v, hv, hfv⟩
          rcases List.mem_cons.mp hv with rfl | hv
          · exact absurd hfv hx
          · exact hfin ⟨v, hv, hfv⟩
        · intro hnone
          rcases hmax (fun v hv => hnone v (List.mem_cons_of_mem _ hv)) with ⟨hwz, hall⟩
          refine ⟨le_trans hyw hwz, fun v hv => ?_⟩
          rcases List.mem_cons.mp hv with rfl | hv
          · exact le_trans hxw hwz
          · exact hall v hv

/-- The outcome of a list that has a record at all. -/
theorem outcome_spec (xs : List α) (hne : xs ≠ []) :
    ∃ z, outcome final rank xs = some z ∧ z ∈ xs ∧ ((∃ x ∈ xs, final x) → final z) ∧
      ((∀ x ∈ xs, ¬ final x) → ∀ x ∈ xs, rank x ≤ rank z) := by
  cases xs with
  | nil => exact absurd rfl hne
  | cons x xs =>
      have hstart : outcome final rank (x :: xs) = xs.foldl (stick final rank) (some x) := rfl
      by_cases hx : final x
      · refine ⟨x, ?_, List.mem_cons_self .., fun _ => hx, fun hnone => ?_⟩
        · rw [hstart, foldl_stick_final final rank xs x hx]
        · exact absurd hx (hnone x (List.mem_cons_self ..))
      · rcases foldl_stick_some final rank xs x hx with ⟨z, hz, hmem, hfin, hmax⟩
        refine ⟨z, by rw [hstart, hz], ?_, ?_, ?_⟩
        · rcases hmem with rfl | hmem
          · exact List.mem_cons_self ..
          · exact List.mem_cons_of_mem _ hmem
        · rintro ⟨w, hw, hfw⟩
          rcases List.mem_cons.mp hw with rfl | hw
          · exact absurd hfw hx
          · exact hfin ⟨w, hw, hfw⟩
        · intro hnone w hw
          rcases hmax (fun w hw => hnone w (List.mem_cons_of_mem _ hw)) with ⟨hxz, hall⟩
          rcases List.mem_cons.mp hw with rfl | hw
          · exact hxz
          · exact hall w hw

/-- A final record that comes first is the outcome. -/
theorem outcome_cons_of_final (x : α) (xs : List α) (hx : final x) :
    outcome final rank (x :: xs) = some x :=
  foldl_stick_final final rank xs x hx

/-- Without a final record, one of the highest rank that comes first is the
    outcome. -/
theorem outcome_cons_of_max (x : α) (xs : List α) (hnone : ∀ y ∈ x :: xs, ¬ final y)
    (hmax : ∀ y ∈ xs, rank y ≤ rank x) : outcome final rank (x :: xs) = some x := by
  have hfold : ∀ ys : List α, (∀ y ∈ ys, ¬ final y ∧ rank y ≤ rank x) →
      ys.foldl (stick final rank) (some x) = some x := by
    intro ys
    induction ys with
    | nil => exact fun _ => rfl
    | cons y ys ih =>
        intro hys
        rcases hys y (List.mem_cons_self ..) with ⟨hy, hle⟩
        have hkeep : stick final rank (some x) y = some x := by
          simp only [stick, if_neg (hnone x (List.mem_cons_self ..)), not_lt.mpr hle, hy, or_self,
            if_false]
        rw [List.foldl_cons, hkeep]
        exact ih (fun w hw => hys w (List.mem_cons_of_mem _ hw))
  exact hfold xs (fun y hy => ⟨hnone y (List.mem_cons_of_mem _ hy), hmax y hy⟩)

/-- The order of the records does not matter exactly when there is no tie. -/
theorem outcome_perm_iff (xs : List α) :
    (∀ ys zs, ys.Perm xs → zs.Perm xs → outcome final rank ys = outcome final rank zs) ↔
      Decisive final rank xs := by
  constructor
  · intro h
    constructor
    · -- Bring either of two final records to the front.
      intro x hx y hy hfx hfy
      rcases exists_perm_first hx with ⟨s, hpx⟩
      rcases exists_perm_first hy with ⟨t, hpy⟩
      have heq := h _ _ hpx hpy
      rw [outcome_cons_of_final final rank x _ hfx, outcome_cons_of_final final rank y _ hfy,
        Option.some.injEq] at heq
      exact heq
    · -- With nothing final, the same with two of the greatest rank.
      intro hnone x hx y hy hmx hmy
      rcases exists_perm_first hx with ⟨s, hpx⟩
      rcases exists_perm_first hy with ⟨t, hpy⟩
      have heq := h _ _ hpx hpy
      rw [outcome_cons_of_max final rank x _ (fun w hw => hnone w (hpx.mem_iff.mp hw))
          (fun w hw => hmx w (hpx.mem_iff.mp (List.mem_cons_of_mem _ hw))),
        outcome_cons_of_max final rank y _ (fun w hw => hnone w (hpy.mem_iff.mp hw))
          (fun w hw => hmy w (hpy.mem_iff.mp (List.mem_cons_of_mem _ hw))),
        Option.some.injEq] at heq
      exact heq
  · intro hd ys zs hy hz
    by_cases hne : xs = []
    · rw [hne] at hy hz
      rw [hy.eq_nil, hz.eq_nil]
    · have hny : ys ≠ [] := fun hc => hne (by rw [hc] at hy; exact hy.nil_eq.symm)
      have hnz : zs ≠ [] := fun hc => hne (by rw [hc] at hz; exact hz.nil_eq.symm)
      rcases outcome_spec final rank ys hny with ⟨a, ha, hma, hfa, hra⟩
      rcases outcome_spec final rank zs hnz with ⟨b, hb, hmb, hfb, hrb⟩
      have hax : a ∈ xs := hy.mem_iff.mp hma
      have hbx : b ∈ xs := hz.mem_iff.mp hmb
      rw [ha, hb]
      -- Both outcomes are final, or both are of the greatest rank.
      by_cases hex : ∃ x ∈ xs, final x
      · rcases hex with ⟨x, hx, hfx⟩
        have hfinal_a := hfa ⟨x, hy.mem_iff.mpr hx, hfx⟩
        have hfinal_b := hfb ⟨x, hz.mem_iff.mpr hx, hfx⟩
        rw [hd.final_unique a hax b hbx hfinal_a hfinal_b]
      · have hnone : ∀ x ∈ xs, ¬ final x := fun x hx hfx => hex ⟨x, hx, hfx⟩
        have hmax_a := hra (fun x hx => hnone x (hy.mem_iff.mp hx))
        have hmax_b := hrb (fun x hx => hnone x (hz.mem_iff.mp hx))
        rw [hd.max_unique hnone a hax b hbx (fun x hx => hmax_a x (hy.mem_iff.mpr hx))
          (fun x hx => hmax_b x (hz.mem_iff.mpr hx))]

/-- Registers over related records, where the relation keeps what is final and the
    ranks, hold related records. -/
theorem foldl_stick_rel {β : Type} {final' : β → Prop} [DecidablePred final'] {rank' : β → ρ}
    {R : α → β → Prop} (hfinal : ∀ x y, R x y → (final x ↔ final' y))
    (hrank : ∀ x y, R x y → rank x = rank' y) {xs : List α} {ys : List β}
    (h : List.Forall₂ R xs ys) {held : Option α} {held' : Option β} (hr : Option.Rel R held held') :
    Option.Rel R (xs.foldl (stick final rank) held) (ys.foldl (stick final' rank') held') := by
  induction h generalizing held held' with
  | nil => exact hr
  | cons hxy _ ih =>
      refine ih ?_
      cases hr with
      | none => exact .some hxy
      | some hheld =>
          -- The same branch is taken on both sides.
          simp only [stick, hfinal _ _ hheld, hfinal _ _ hxy, hrank _ _ hheld, hrank _ _ hxy]
          split
          · exact .some hheld
          · split
            · exact .some hxy
            · exact .some hheld

/-! ## The outcome in closed form -/

/-- A register that holds a record is one that was given it first. -/
theorem foldl_stick_eq_outcome (held : Option α) (xs : List α) :
    xs.foldl (stick final rank) held = outcome final rank (held.toList ++ xs) := by
  cases held with
  | none => rfl
  | some y => rfl

/-- The outcome in closed form: the first final record, and without one the
    earliest of the highest rank. -/
theorem outcome_eq (xs : List α) :
    outcome final rank xs = (xs.find? (fun x => final x)).or (xs.argmax rank) := by
  induction xs using List.reverseRecOn with
  | nil => rfl
  | append_singleton xs x ih =>
      have hstep : outcome final rank (xs ++ [x]) = stick final rank (outcome final rank xs) x := by
        rw [outcome, List.foldl_append]
        rfl
      rw [hstep, ih, List.find?_append, List.argmax_concat]
      cases hfirst : xs.find? (fun x => final x) with
      | some y =>
          -- A final record is there already.
          have hy : final y := by
            have h := List.find?_some hfirst
            rwa [decide_eq_true_iff] at h
          simp only [Option.some_or, stick, if_pos hy]
      | none =>
          rw [Option.none_or, Option.none_or]
          cases hmax : xs.argmax rank with
          | none =>
              by_cases hx : final x
              · simp only [stick, List.find?_cons, decide_eq_true hx, Option.some_or]
              · simp only [stick, List.find?_cons, decide_eq_false hx, List.find?_nil,
                  Option.none_or]
          | some y =>
              have hy : ¬ final y := by
                have h := List.find?_eq_none.mp hfirst y (List.argmax_mem hmax)
                rwa [decide_eq_true_iff] at h
              by_cases hx : final x
              · simp only [stick, if_neg hy, hx, or_true, if_true, List.find?_cons,
                  decide_true, Option.some_or]
              · simp only [stick, if_neg hy, hx, or_false, List.find?_cons, decide_false,
                  List.find?_nil, Option.none_or]

/-- Different ranks, and one final record at most, leave no tie. -/
theorem decisive_of_nodup (xs : List α) (hranks : (xs.map rank).Nodup)
    (hone : (xs.filter (fun x => final x)).length ≤ 1) : Decisive final rank xs := by
  constructor
  · intro x hx y hy hfx hfy
    have hmx : x ∈ xs.filter (fun x => final x) := List.mem_filter.mpr ⟨hx, decide_eq_true hfx⟩
    have hmy : y ∈ xs.filter (fun x => final x) := List.mem_filter.mpr ⟨hy, decide_eq_true hfy⟩
    generalize xs.filter (fun x => final x) = fs at hone hmx hmy
    match fs with
    | [] => exact absurd hmx List.not_mem_nil
    | [z] => rw [List.mem_singleton.mp hmx, List.mem_singleton.mp hmy]
    | _ :: _ :: rest =>
        rw [List.length_cons, List.length_cons] at hone
        omega
  · intro _ x hx y hy hmx hmy
    have hrank : rank x = rank y := le_antisymm (hmy x hx) (hmx y hy)
    exact List.inj_on_of_nodup_map hranks hx hy hrank

/-- A register stays above what it is above. -/
theorem atLeast_stick {x y : α} (h : AtLeast final rank x y) (z : α) :
    ∃ w, stick final rank (some y) z = some w ∧ AtLeast final rank x w := by
  by_cases hy : final y
  · exact ⟨y, by simp only [stick, if_pos hy], Or.inl hy⟩
  · have hle : rank x ≤ rank y := h.resolve_left hy
    by_cases htake : rank y < rank z ∨ final z
    · refine ⟨z, by simp only [stick, if_neg hy, if_pos htake], ?_⟩
      exact htake.symm.imp_right (fun hlt => hle.trans (le_of_lt hlt))
    · exact ⟨y, by simp only [stick, if_neg hy, if_neg htake], Or.inr hle⟩

theorem stick_atLeast (held : Option α) (x : α) :
    ∃ w, stick final rank held x = some w ∧ AtLeast final rank x w := by
  cases held with
  | none => exact ⟨x, rfl, Or.inr (le_refl _)⟩
  | some y =>
      by_cases hy : final y
      · exact ⟨y, by simp only [stick, if_pos hy], Or.inl hy⟩
      · by_cases htake : rank y < rank x ∨ final x
        · exact ⟨x, by simp only [stick, if_neg hy, if_pos htake], Or.inr (le_refl _)⟩
        · refine ⟨y, by simp only [stick, if_neg hy, if_neg htake], Or.inr ?_⟩
          exact not_lt.mp (not_or.mp htake).1

/-- It does not take a record below it that is not final. -/
theorem stick_of_atLeast {x y : α} (h : AtLeast final rank x y) (hx : ¬ final x) :
    stick final rank (some y) x = some y := by
  by_cases hy : final y
  · simp only [stick, if_pos hy]
  · have hle : rank x ≤ rank y := h.resolve_left hy
    have hkeep : ¬ (rank y < rank x ∨ final x) := by
      rw [not_or, not_lt]
      exact ⟨hle, hx⟩
    simp only [stick, if_neg hy, if_neg hkeep]

end StickyMax

end WhisperNet
