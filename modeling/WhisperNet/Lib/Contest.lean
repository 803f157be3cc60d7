import Mathlib.Data.List.Basic
import Mathlib.Data.List.Induction
import Mathlib.Data.List.Perm.Basic
import Mathlib.Order.Lattice
import WhisperNet.Lib.Dict

/-!
# Contests

A place that is held by one of several records. The first record takes it, and
every further one replaces the holder if it beats it, by a relation that need not
be an order. A dictionary merged from several others is such a contest for each
of its keys.

Who holds the place at the end depends on the order of the records. The rules say
what can be made of an order, since a record that nothing beats wins when it comes
first and one that beats everything wins when it comes last, and what holds in
every order: a class of records that beats the others and is not beaten by them
wins, and so does the highest rank if the relation compares ranks.

## Main definitions

* `challenge`: The holder after one more record.
* `champion`: The holder after a list of records.
* `contend`: A contest for every key of a dictionary.

## Theorems

* `champion_first`, `champion_last`, `champion_last_two`: Winning in some order.
* `champion_class`: The class that wins in every order.
* `champion_rank_iff`, `champion_rank`: The first one of the highest rank wins.
* `champion_map`: Records seen through a function.
* `get?_contend`: Each key of a dictionary has its own contest.
* `get?_merge`: The contest over several sources.
* `exists_perm_filterMap`: An order of some records extends to one of all.
-/

namespace WhisperNet

variable {α : Type} (beats : α → α → Prop) [DecidableRel beats]

/-- The holder after one more record. -/
def challenge (held : Option α) (x : α) : Option α :=
  match held with
  | none => some x
  | some y => if beats x y then some x else some y

/-- The holder after the records, in their order. -/
def champion (xs : List α) : Option α := xs.foldl (challenge beats) none

variable {beats} {xs : List α} {x z : α}

theorem challenge_isSome (held : Option α) (x : α) : ∃ z, challenge beats held x = some z := by
  cases held with
  | none => exact ⟨x, rfl⟩
  | some y =>
      by_cases hbeats : beats x y
      · exact ⟨x, if_pos hbeats⟩
      · exact ⟨y, if_neg hbeats⟩

theorem challenge_of_beats {held : Option α} (h : ∀ y, held = some y → beats x y) :
    challenge beats held x = some x := by
  cases held with
  | none => rfl
  | some y => exact if_pos (h y rfl)

theorem champion_concat (xs : List α) (x : α) :
    champion beats (xs ++ [x]) = challenge beats (champion beats xs) x := by
  unfold champion
  rw [List.foldl_append]
  rfl

theorem champion_mem (h : champion beats xs = some z) : z ∈ xs := by
  induction xs using List.reverseRecOn generalizing z with
  | nil => exact absurd h (by simp only [champion, List.foldl_nil, reduceCtorEq, not_false_eq_true])
  | append_singleton xs x ih =>
      rw [champion_concat] at h
      cases hheld : champion beats xs with
      | none =>
          rw [hheld] at h
          rw [← Option.some.inj h]
          exact List.mem_append_right _ (List.mem_singleton_self x)
      | some y =>
          rw [hheld, challenge] at h
          split at h
          · rw [← Option.some.inj h]
            exact List.mem_append_right _ (List.mem_singleton_self x)
          · exact List.mem_append_left _ (ih (hheld.trans h))

variable (beats) in
/-- Someone holds the place if there is a record at all. -/
theorem champion_isSome (h : xs ≠ []) : ∃ z, champion beats xs = some z := by
  cases xs using List.reverseRecOn with
  | nil => exact absurd rfl h
  | append_singleton xs x =>
      rw [champion_concat]
      exact challenge_isSome _ x

/-! ## Orders that make a record win -/

/-- A holder that nothing beats stays. -/
theorem foldl_challenge_unbeaten (h : ∀ y ∈ xs, ¬ beats y x) :
    xs.foldl (challenge beats) (some x) = some x := by
  induction xs with
  | nil => rfl
  | cons y ys ih =>
      rw [List.foldl_cons, challenge, if_neg (h y (List.mem_cons_self ..))]
      exact ih (fun w hw => h w (List.mem_cons_of_mem _ hw))

/-- A record that nothing beats wins when it comes first. -/
theorem champion_first (h : ∀ y ∈ xs, ¬ beats y x) : champion beats (x :: xs) = some x :=
  foldl_challenge_unbeaten h

/-- A record that beats everything wins when it comes last. -/
theorem champion_last (h : ∀ y ∈ xs, beats x y) : champion beats (xs ++ [x]) = some x := by
  rw [champion_concat]
  exact challenge_of_beats (fun y hy => h y (champion_mem hy))

/-- One that beats such a record wins when it comes right after it. -/
theorem champion_last_two {c : α} (h : ∀ y ∈ xs, beats c y) (hx : beats x c) :
    champion beats (xs ++ [c] ++ [x]) = some x := by
  rw [champion_concat, champion_last h]
  exact challenge_of_beats (fun y hy => Option.some.inj hy ▸ hx)

theorem exists_perm_first (h : x ∈ xs) : ∃ ys : List α, (x :: ys).Perm xs := by
  rcases List.append_of_mem h with ⟨before, after, hsplit⟩
  rw [hsplit]
  exact ⟨before ++ after, List.perm_middle.symm⟩

theorem exists_perm_last_two {c : α} (hc : c ∈ xs) (hx : x ∈ xs) (hne : x ≠ c) :
    ∃ ys : List α, (ys ++ [c] ++ [x]).Perm xs := by
  rcases exists_perm_first hx with ⟨ys, hys⟩
  have hmem := (List.mem_cons.mp (hys.mem_iff.mpr hc)).resolve_left (fun h => hne h.symm)
  rcases exists_perm_first hmem with ⟨zs, hzs⟩
  refine ⟨zs, ?_⟩
  have hlast : (zs ++ [c]).Perm ys := (List.perm_append_singleton c zs).trans hzs
  exact (List.perm_append_singleton x _).trans ((hlast.cons x).trans hys)

/-! ## What wins in every order -/

/-- If the records of a class beat the others, and the others do not beat them,
    one of the class wins. -/
theorem champion_class (good : α → Prop) (htakes : ∀ x ∈ xs, ∀ y ∈ xs, good x → ¬ good y →
    beats x y) (hkeeps : ∀ x ∈ xs, ∀ y ∈ xs, ¬ good x → good y → ¬ beats x y)
    (hsome : ∃ x ∈ xs, good x) (h : champion beats xs = some z) : good z := by
  -- Induction on the records before the last.
  induction xs using List.reverseRecOn generalizing z with
  | nil =>
      rcases hsome with ⟨x, hx, _⟩
      exact absurd hx List.not_mem_nil
  | append_singleton xs x ih =>
      have hmem : ∀ y ∈ xs, y ∈ xs ++ [x] := fun y hy => List.mem_append_left _ hy
      have hlast : x ∈ xs ++ [x] := List.mem_append_right _ (List.mem_singleton_self x)
      rw [champion_concat] at h
      by_cases hx : good x
      · cases hheld : champion beats xs with
        | none =>
            rw [hheld] at h
            exact Option.some.inj h ▸ hx
        | some y =>
            rw [hheld, challenge] at h
            split at h
            · exact Option.some.inj h ▸ hx
            · rename_i hbeaten
              rw [← Option.some.inj h]
              by_contra hy
              exact hbeaten (htakes x hlast y (hmem y (champion_mem hheld)) hx hy)
      · -- The last one is not of the class, so one of the others is.
        have hothers : ∃ y ∈ xs, good y := by
          rcases hsome with ⟨y, hy, hgood⟩
          rcases List.mem_append.mp hy with hy | hy
          · exact ⟨y, hy, hgood⟩
          · exact absurd (List.mem_singleton.mp hy ▸ hgood) hx
        rcases hothers with ⟨y, hy, hgood⟩
        rcases champion_isSome beats (List.ne_nil_of_mem hy) with ⟨w, hw⟩
        have hgoodw := ih (fun a ha b hb => htakes a (hmem a ha) b (hmem b hb))
          (fun a ha b hb => hkeeps a (hmem a ha) b (hmem b hb)) ⟨y, hy, hgood⟩ hw
        rw [hw, challenge, if_neg (hkeeps x hlast w (hmem w (champion_mem hw)) hx hgoodw)] at h
        exact Option.some.inj h ▸ hgoodw

/-! ## Ranks -/

/-- If records are beaten by those of greater rank only, the first one of the
    highest rank wins. -/
theorem champion_rank_iff {ρ : Type} [LinearOrder ρ] (rank : α → ρ)
    (hrank : ∀ x ∈ xs, ∀ y ∈ xs, beats x y ↔ rank y < rank x) :
    champion beats xs = some z ↔ ∃ before after, xs = before ++ z :: after ∧
      (∀ x ∈ before, rank x < rank z) ∧ ∀ x ∈ after, rank x ≤ rank z := by
  constructor
  · intro h
    induction xs using List.reverseRecOn generalizing z with
    | nil =>
        exact absurd h (by simp only [champion, List.foldl_nil, reduceCtorEq, not_false_eq_true])
    | append_singleton xs x ih =>
        have hmem : ∀ y ∈ xs, y ∈ xs ++ [x] := fun y hy => List.mem_append_left _ hy
        have hlast : x ∈ xs ++ [x] := List.mem_append_right _ (List.mem_singleton_self x)
        rw [champion_concat] at h
        -- The last record against the winner of those before it.
        cases hheld : champion beats xs with
        | none =>
            have hnil : xs = [] := by
              by_contra hne
              rcases champion_isSome beats hne with ⟨w, hw⟩
              rw [hw] at hheld
              exact absurd hheld (by simp only [reduceCtorEq, not_false_eq_true])
            rw [hheld] at h
            rw [hnil, ← Option.some.inj h]
            exact ⟨[], [], rfl, fun _ hy => absurd hy List.not_mem_nil,
              fun _ hy => absurd hy List.not_mem_nil⟩
        | some w =>
            have hw := hrank x hlast w (hmem w (champion_mem hheld))
            rcases ih (fun a ha b hb => hrank a (hmem a ha) b (hmem b hb)) hheld with
              ⟨before, after, hsplit, hbefore, hafter⟩
            rw [hheld, challenge] at h
            split at h
            · rename_i hbeats
              rw [← Option.some.inj h]
              refine ⟨xs, [], rfl, fun y hy => ?_, fun _ hy => absurd hy List.not_mem_nil⟩
              rw [hsplit, List.mem_append, List.mem_cons] at hy
              rcases hy with hy | hy | hy
              · exact (hbefore y hy).trans (hw.mp hbeats)
              · rw [hy]
                exact hw.mp hbeats
              · exact (hafter y hy).trans_lt (hw.mp hbeats)
            · rename_i hbeats
              rw [← Option.some.inj h]
              refine ⟨before, after ++ [x], ?_, hbefore, fun y hy => ?_⟩
              · rw [hsplit, List.append_assoc, List.cons_append]
              · rcases List.mem_append.mp hy with hy | hy
                · exact hafter y hy
                · rw [List.mem_singleton.mp hy]
                  exact not_lt.mp (fun hlt => hbeats (hw.mpr hlt))
  · rintro ⟨before, after, hsplit, hbefore, hafter⟩
    have hz : z ∈ xs := by
      rw [hsplit]
      exact List.mem_append_right _ (List.mem_cons_self ..)
    have hmem : ∀ y, y ∈ before ∨ y ∈ after → y ∈ xs := by
      rintro y (hy | hy)
      · rw [hsplit]
        exact List.mem_append_left _ hy
      · rw [hsplit]
        exact List.mem_append_right _ (List.mem_cons_of_mem _ hy)
    -- It wins against those before it, and nothing after it beats it.
    have hwins : champion beats (before ++ [z]) = some z :=
      champion_last (fun y hy => (hrank z hz y (hmem y (Or.inl hy))).mpr (hbefore y hy))
    rw [hsplit, List.append_cons, champion, List.foldl_append]
    change after.foldl (challenge beats) (champion beats (before ++ [z])) = some z
    rw [hwins]
    refine foldl_challenge_unbeaten (fun y hy hbeats => ?_)
    exact absurd ((hrank y (hmem y (Or.inr hy)) z hz).mp hbeats) (not_lt.mpr (hafter y hy))

/-- Nothing has a higher rank than the winner. -/
theorem champion_rank {ρ : Type} [LinearOrder ρ] (rank : α → ρ)
    (hrank : ∀ x ∈ xs, ∀ y ∈ xs, beats x y ↔ rank y < rank x) (h : champion beats xs = some z) :
    ∀ y ∈ xs, rank y ≤ rank z := by
  rcases (champion_rank_iff rank hrank).mp h with ⟨before, after, hsplit, hbefore, hafter⟩
  intro y hy
  rw [hsplit, List.mem_append, List.mem_cons] at hy
  rcases hy with hy | hy | hy
  · exact (hbefore y hy).le
  · rw [hy]
  · exact hafter y hy

/-! ## Records seen through a function -/

variable (beats) in
/-- A contest that looks at its records through a function only. -/
theorem champion_map {β : Type} {beats' : β → β → Prop} [DecidableRel beats'] (f : α → β)
    (hf : ∀ x y, beats x y ↔ beats' (f x) (f y)) (xs : List α) :
    champion beats' (xs.map f) = (champion beats xs).map f := by
  induction xs using List.reverseRecOn with
  | nil => rfl
  | append_singleton xs x ih =>
      rw [List.map_append, List.map_singleton, champion_concat, champion_concat, ih]
      cases champion beats xs with
      | none => rfl
      | some y =>
          rw [Option.map_some, challenge, challenge]
          by_cases hbeats : beats x y
          · rw [if_pos hbeats, if_pos ((hf x y).mp hbeats), Option.map_some]
          · rw [if_neg hbeats, if_neg (fun hc => hbeats ((hf x y).mpr hc)), Option.map_some]

/-! ## Dictionaries -/

section Dictionaries

variable {κ : Type} [DecidableEq κ]

variable (beats) in
/-- One more entry: its value takes the place of its key, or does not. -/
def contend (d : Dict κ α) (e : κ × α) : Dict κ α :=
  match d.get? e.1 with
  | none => d.set e.1 e.2
  | some y => if beats e.2 y then d.set e.1 e.2 else d

theorem get?_contend_one (d : Dict κ α) (e : κ × α) (k : κ) :
    (contend beats d e).get? k = if e.1 = k then challenge beats (d.get? k) e.2 else d.get? k := by
  unfold contend
  by_cases hkey : e.1 = k
  · rw [if_pos hkey, hkey]
    cases hget : d.get? k with
    | none => exact Dict.get?_set_self d k e.2
    | some y =>
        rw [challenge]
        dsimp only
        split
        · exact Dict.get?_set_self d k e.2
        · exact hget
  · rw [if_neg hkey]
    split
    · exact Dict.get?_set_of_ne d _ _ _ (fun hc => hkey hc.symm)
    · split
      · exact Dict.get?_set_of_ne d _ _ _ (fun hc => hkey hc.symm)
      · rfl

/-- The holder of a key is the champion of the entries with that key. -/
theorem get?_contend (d : Dict κ α) (es : List (κ × α)) (k : κ) :
    (es.foldl (contend beats) d).get? k =
      ((es.filter (fun e => e.1 = k)).map Prod.snd).foldl (challenge beats) (d.get? k) := by
  induction es generalizing d with
  | nil => rfl
  | cons e es ih =>
      rw [List.foldl_cons, ih, get?_contend_one, List.filter_cons]
      by_cases hkey : e.1 = k
      · simp only [hkey, if_true, decide_true, List.map_cons, List.foldl_cons]
      · simp only [hkey, if_false, decide_false, Bool.false_eq_true]

variable (beats) in
/-- A merge of several sources, each of which has a record for the key or none. -/
theorem get?_merge {σ : Type} (step : Dict κ α → σ → Dict κ α) (tells : σ → Option α) (k : κ)
    (hstep : ∀ d s, (step d s).get? k = (tells s).toList.foldl (challenge beats) (d.get? k))
    (d : Dict κ α) (sources : List σ) :
    (sources.foldl step d).get? k =
      (sources.filterMap tells).foldl (challenge beats) (d.get? k) := by
  induction sources generalizing d with
  | nil => rfl
  | cons s sources ih =>
      rw [List.foldl_cons, ih, hstep, List.filterMap_cons]
      cases tells s with
      | none => rfl
      | some x => rfl

end Dictionaries

/-! ## Orders of some of the records -/

/-- A new order of what a function picks from a list comes from an order of the
    list. -/
theorem exists_perm_filterMap {β : Type} (f : α → Option β) (l : List α) (ys : List β)
    (h : ys.Perm (l.filterMap f)) : ∃ zs : List α, zs.Perm l ∧ zs.filterMap f = ys := by
  induction ys generalizing l with
  | nil => exact ⟨l, List.Perm.refl l, h.symm.eq_nil⟩
  | cons y ys ih =>
      rcases List.mem_filterMap.mp (h.mem_iff.mp (List.mem_cons_self ..)) with ⟨a, ha, hfa⟩
      rcases exists_perm_first ha with ⟨rest, hrest⟩
      have hpicked := h.trans (hrest.symm.filterMap f)
      rw [List.filterMap_cons_some hfa, List.perm_cons] at hpicked
      rcases ih rest hpicked with ⟨zs, hzs, hmap⟩
      refine ⟨a :: zs, (hzs.cons a).trans hrest, ?_⟩
      rw [List.filterMap_cons_some hfa, hmap]

end WhisperNet
