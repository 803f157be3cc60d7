import Mathlib.Data.List.Dedup
import Mathlib.Data.List.Induction
import WhisperNet.Lib.Dict
import WhisperNet.Lib.Pieces

/-!
# Summaries of a Log

A log lists its entries newest first. Two summaries are kept beside it, and each
can be brought up to date from the newest entry alone, without going over the log
again: its values without repetitions, each where it was met first, which is
`List.dedup`, and a dictionary from the keys of the entries to their values, where
a value that comes back moves to the front.

## Main definitions

* `under`: The values with a key, those met last in front.
* `grouped`: The dictionary.

## Theorems

* `distinct_cons_distinct`: Repetitions may be left out before more is added.
* `lookup_grouped`: What is found in the dictionary.
* `grouped_cons`: The newest entry is an assignment.
-/

namespace WhisperNet

section Distinct

variable {α : Type} [DecidableEq α]

theorem distinct_concat (xs : List α) (x : α) : distinct (xs ++ [x]) = addNew (distinct xs) x := by
  rw [distinct, List.foldl_append]
  rfl

theorem foldl_addNew_distinct (out xs : List α) :
    (distinct xs).foldl addNew out = xs.foldl addNew out := by
  -- Induction from the end, where the list without repetitions grows.
  induction xs using List.reverseRecOn with
  | nil => rfl
  | append_singleton xs x ih =>
      rw [distinct_concat, List.foldl_append, ← ih]
      by_cases hx : x ∈ distinct xs
      · have hmem : x ∈ (distinct xs).foldl addNew out :=
          (mem_foldl_addNew out (distinct xs) x).mpr (Or.inr hx)
        simp only [List.foldl_cons, List.foldl_nil, addNew, if_pos hx, if_pos hmem]
      · rw [addNew, if_neg hx, List.foldl_append]

theorem distinct_cons_distinct (x : α) (xs : List α) :
    distinct (x :: distinct xs) = distinct (x :: xs) := foldl_addNew_distinct [x] xs

end Distinct

section Grouped

variable {ι κ α : Type} [DecidableEq κ] [DecidableEq α] (key : ι → κ) (val : ι → α)

/-- The values with a key, without repetitions. -/
def under (k : κ) (log : List ι) : List α :=
  distinct ((log.filter (fun e => key e = k)).map val)

/-- The keys in the order in which they were met, with what is under them. -/
def grouped (log : List ι) : List (κ × List α) :=
  (log.map key).dedup.reverse.map (fun k => (k, under key val k log))

variable {key val}

theorem under_cons_self (e : ι) (log : List ι) :
    under key val (key e) (e :: log) = distinct (val e :: under key val (key e) log) := by
  rw [under, under, distinct_cons_distinct, List.filter_cons, if_pos (decide_eq_true rfl),
    List.map_cons]

theorem under_cons_of_ne {e : ι} {k : κ} (h : key e ≠ k) (log : List ι) :
    under key val k (e :: log) = under key val k log := by
  rw [under, under, List.filter_cons, if_neg (by rw [decide_eq_true_eq]; exact h)]

theorem keys_grouped (log : List ι) :
    (grouped key val log).map Prod.fst = (log.map key).dedup.reverse := by
  rw [grouped, List.map_map]
  exact List.map_id _

/-- Distinct keys with a value each, before and after an assignment. -/
theorem assign_map_keys {β : Type} (f : κ → β) (k : κ) (v : β) {ks : List κ} (h : ks.Nodup) :
    assign k v (ks.map (fun q => (q, f q))) =
      (addNew ks k).map (fun q => (q, if q = k then v else f q)) := by
  induction ks with
  | nil => simp [assign, addNew]
  | cons q ks ih =>
      rw [List.nodup_cons] at h
      by_cases hq : q = k
      · -- The key is the first one, and the others are different from it.
        have hrest : ∀ r ∈ ks, ((r, f r) : κ × β) = (r, if r = k then v else f r) := by
          intro r hr
          rw [if_neg (fun hrk => h.1 (by rw [hq, ← hrk]; exact hr))]
        rw [List.map_cons, assign, if_pos hq, addNew,
          if_pos (show k ∈ q :: ks by rw [hq]; exact List.mem_cons_self ..), List.map_cons,
          if_pos hq, List.map_congr_left hrest]
      · have hmem : k ∈ q :: ks ↔ k ∈ ks := by
          rw [List.mem_cons]
          exact ⟨fun hk => hk.resolve_left (fun hc => hq hc.symm), Or.inr⟩
        rw [List.map_cons, assign, if_neg hq, ih h.2]
        unfold addNew
        by_cases hk : k ∈ ks
        · rw [if_pos hk, if_pos (hmem.mpr hk), List.map_cons, if_neg hq]
        · rw [if_neg hk, if_neg (fun hc => hk (hmem.mp hc)), List.cons_append, List.map_cons,
            if_neg hq]

theorem lookup_map_keys {β : Type} (f : κ → β) (k : κ) (ks : List κ) :
    lookup k (ks.map (fun q => (q, f q))) = if k ∈ ks then some (f k) else none := by
  induction ks with
  | nil => rfl
  | cons q ks ih =>
      rw [List.map_cons, lookup]
      by_cases hq : q = k
      · rw [if_pos hq, hq, if_pos (List.mem_cons_self ..)]
      · simp only [if_neg hq, ih, List.mem_cons, show ¬ k = q from fun hc => hq hc.symm, false_or]

/-- A key that is not there has nothing under it. -/
theorem lookup_grouped (k : κ) (log : List ι) :
    (lookup k (grouped key val log)).getD [] = under key val k log := by
  rw [grouped, lookup_map_keys]
  by_cases hk : k ∈ (log.map key).dedup.reverse
  · rw [if_pos hk]
    rfl
  · rw [if_neg hk, under]
    rw [List.mem_reverse, List.mem_dedup, List.mem_map] at hk
    have hnone : log.filter (fun e => key e = k) = [] := by
      refine List.filter_eq_nil_iff.mpr (fun e he hc => hk ⟨e, he, of_decide_eq_true hc⟩)
    rw [hnone]
    rfl

/-- The newest entry is an assignment to its key. -/
theorem grouped_cons (e : ι) (log : List ι) :
    grouped key val (e :: log) =
      assign (key e) (distinct (val e :: under key val (key e) log)) (grouped key val log) := by
  have hkeys : ((e :: log).map key).dedup.reverse =
      addNew (log.map key).dedup.reverse (key e) := by
    have hmem : key e ∈ (log.map key).dedup.reverse ↔ key e ∈ log.map key := by
      rw [List.mem_reverse, List.mem_dedup]
    rw [List.map_cons, addNew]
    by_cases hk : key e ∈ log.map key
    · rw [List.dedup_cons_of_mem hk, if_pos (hmem.mpr hk)]
    · rw [List.dedup_cons_of_notMem hk, if_neg (fun hc => hk (hmem.mp hc)), List.reverse_cons]
  have hnodup : (log.map key).dedup.reverse.Nodup :=
    List.nodup_reverse.mpr (List.nodup_dedup _)
  conv_rhs => rw [grouped, assign_map_keys _ _ _ hnodup]
  rw [grouped, hkeys]
  refine List.map_congr_left (fun k _ => ?_)
  by_cases hk : k = key e
  · rw [if_pos hk, hk, under_cons_self]
  · rw [if_neg hk, under_cons_of_ne (fun hc => hk hc.symm)]

end Grouped

end WhisperNet
