import Mathlib.Order.BoundedOrder.Lattice

/-!
# Views That Absorb News

A replica shows a view, a value of a join semilattice under every key. A piece
of news says something about keys too, and what a list of news says about a key
is the join of what its pieces say. A replica that absorbs news joins it to its
view. Then all that matters is which pieces it got: neither their order nor
their number changes the view, and two replicas with the same news have the
same view, whatever else they have been through.

## Main definitions

* `gathered`: What a list of news says about a key.
* `Absorbs`: The view after some news is the view before it, joined with it.

## Theorems

* `gathered_append`: The news of two lists is the join of the two.
* `le_gathered`: A piece of news is part of what a list with it says.
* `gathered_mono`: More news says more.
* `absorbs_of_le`: An upper bound of the two that is not beyond them.
* `absorbs_of_known`: News that the view has already changes nothing.
* `Absorbs.gathered`: A view that is what its news says stays so.
-/

namespace WhisperNet

namespace Absorb

variable {α κ β : Type} [SemilatticeSup β] [OrderBot β] (tells : α → κ → β)

/-- What a list of news says about a key. -/
def gathered (news : List α) (k : κ) : β := news.foldr (fun a acc => tells a k ⊔ acc) ⊥

/-- The view after some news is the view before it, joined with the news. -/
def Absorbs (view view' : κ → β) (news : List α) : Prop :=
  ∀ k, view' k = view k ⊔ gathered tells news k

theorem gathered_append (xs ys : List α) (k : κ) :
    gathered tells (xs ++ ys) k = gathered tells xs k ⊔ gathered tells ys k := by
  induction xs with
  | nil => exact (bot_sup_eq _).symm
  | cons a xs ih =>
      calc gathered tells (a :: xs ++ ys) k
          = tells a k ⊔ gathered tells (xs ++ ys) k := rfl
        _ = tells a k ⊔ (gathered tells xs k ⊔ gathered tells ys k) := by rw [ih]
        _ = gathered tells (a :: xs) k ⊔ gathered tells ys k := (sup_assoc ..).symm

theorem le_gathered {news : List α} {a : α} (h : a ∈ news) (k : κ) :
    tells a k ≤ gathered tells news k := by
  induction news with
  | nil => exact (List.not_mem_nil h).elim
  | cons b news ih =>
      rcases List.mem_cons.mp h with rfl | h
      · exact le_sup_left
      · exact (ih h).trans le_sup_right

theorem gathered_le {news : List α} {k : κ} {b : β} (h : ∀ a ∈ news, tells a k ≤ b) :
    gathered tells news k ≤ b := by
  induction news with
  | nil => exact bot_le
  | cons a news ih =>
      exact sup_le (h a (List.mem_cons_self ..)) (ih (fun c hc => h c (List.mem_cons_of_mem _ hc)))

/-- What a list says depends only on which pieces are in it. -/
theorem gathered_mono {xs ys : List α} (h : ∀ a ∈ xs, a ∈ ys) (k : κ) :
    gathered tells xs k ≤ gathered tells ys k :=
  gathered_le tells (fun a ha => le_gathered tells (h a ha) k)

/-- A view that keeps what it was and shows the news, and nothing beyond the two. -/
theorem absorbs_of_le {view view' : κ → β} {news : List α} (hold : ∀ k, view k ≤ view' k)
    (hnew : ∀ a ∈ news, ∀ k, tells a k ≤ view' k)
    (hno : ∀ k, view' k ≤ view k ⊔ gathered tells news k) : Absorbs tells view view' news := by
  intro k
  exact le_antisymm (hno k) (sup_le (hold k) (gathered_le tells (fun a ha => hnew a ha k)))

/-- A view that shows the news already stays as it is. -/
theorem absorbs_of_known {view view' : κ → β} {news : List α} (hsame : ∀ k, view' k = view k)
    (hknown : ∀ a ∈ news, ∀ k, tells a k ≤ view' k) : Absorbs tells view view' news :=
  absorbs_of_le tells (fun k => (hsame k).ge) hknown (fun k => (hsame k).le.trans le_sup_left)

/-- A view that is what its news says stays so when it absorbs more. -/
theorem Absorbs.gathered {view view' : κ → β} {old new : List α}
    (h : Absorbs tells view view' new) (hview : ∀ k, view k = Absorb.gathered tells old k) (k : κ) :
    view' k = Absorb.gathered tells (old ++ new) k := by
  rw [h k, hview k, gathered_append]

end Absorb

end WhisperNet
