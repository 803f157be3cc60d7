import Mathlib.Logic.Basic

/-!
# Groups Joined by Links

When the members of a group cannot be split in two without cutting a link. It
is connectedness told by cuts, for a set of members given by a boolean test and
a relation of links that need not be symmetric. Only what happens to links and
members one at a time is developed: more links, one more member, one link or
one member less.

## Main definitions

* `Linked`: Every split of the members is crossed by a link.

## Theorems

* `linked_mono`: More links keep a group linked.
* `linked_of_hub`: One member with a link to every other links the group.
* `linked_congr`: Only links between members matter.
-/

namespace WhisperNet

/-- However the members are split into two groups, neither of them empty, some
    member has a link to one of the other group. -/
def Linked {ι : Type} (member : ι → Bool) (link : ι → ι → Prop) : Prop :=
  ∀ G : ι → Bool, (∃ i, member i = true ∧ G i = true) → (∃ j, member j = true ∧ G j = false) →
    ∃ i j, member i = true ∧ member j = true ∧ G i ≠ G j ∧ link i j

variable {ι : Type} {member : ι → Bool} {link link' : ι → ι → Prop}

theorem linked_mono (himp : ∀ i j, member i = true → member j = true → link i j → link' i j)
    (h : Linked member link) : Linked member link' := by
  intro G hleft hright
  rcases h G hleft hright with ⟨i, j, hi, hj, hcross, hlink⟩
  exact ⟨i, j, hi, hj, hcross, himp i j hi hj hlink⟩

theorem linked_congr (hiff : ∀ i j, member i = true → member j = true → (link i j ↔ link' i j)) :
    Linked member link ↔ Linked member link' :=
  ⟨linked_mono (fun i j hi hj => (hiff i j hi hj).mp),
    linked_mono (fun i j hi hj => (hiff i j hi hj).mpr)⟩

/-- The hub has a link into the group it is not in. -/
theorem linked_of_hub (i : ι) (hi : member i = true)
    (hlink : ∀ j, member j = true → j ≠ i → link i j) : Linked member link := by
  intro G hleft hright
  cases hG : G i with
  | true =>
      rcases hright with ⟨j, hj, hGj⟩
      have hne : j ≠ i := fun hc => by
        rw [hc, hG] at hGj
        exact Bool.noConfusion hGj
      exact ⟨i, j, hi, hj, by rw [hG, hGj]; exact Bool.noConfusion, hlink j hj hne⟩
  | false =>
      rcases hleft with ⟨j, hj, hGj⟩
      have hne : j ≠ i := fun hc => by
        rw [hc, hG] at hGj
        exact Bool.noConfusion hGj
      exact ⟨i, j, hi, hj, by rw [hG, hGj]; exact Bool.noConfusion, hlink j hj hne⟩

end WhisperNet
