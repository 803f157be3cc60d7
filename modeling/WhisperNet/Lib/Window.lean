import Mathlib.Data.List.Basic

/-!
# Bounded Windows

A first-in first-out window over the last `n` items appended: appending to a
full window drops its oldest item. The bound is a field of the structure.

## Main definitions

* `Window`: A list of at most `n` items.
* `Window.append`: Add an item at the end, evicting the oldest if full.
* `Window.Recent`: An item with few newer ones.
* `Window.AgreeOff`: Two windows that differ in some old items only.

## Theorems

* `Window.mem_append`: What an append leaves was there before or is new.
* `Window.recent_append_self`, `Window.Recent.append`: How long an item stays.
* `Window.AgreeOff.append`: Windows that differ in old items go on doing so.
* `Window.AgreeOff.any_eq`: A test that no old item passes reads them the same.
-/

namespace WhisperNet

/-- A queue of at most `n` items, oldest first. -/
structure Window (n : Nat) (α : Type) where
  items : List α
  bounded : items.length ≤ n

namespace Window

variable {n : Nat} {α : Type}

instance [DecidableEq α] : DecidableEq (Window n α) := fun w w' =>
  decidable_of_iff (w.items = w'.items) ⟨fun h => by
    cases w
    cases w'
    cases h
    rfl, fun h => by rw [h]⟩

def empty : Window n α := ⟨[], Nat.zero_le n⟩

/-- Append at the end; the surplus falls off the front. -/
def append (w : Window n α) (x : α) : Window n α :=
  ⟨(w.items ++ [x]).drop (w.items.length + 1 - n), by
    rw [List.length_drop, List.length_append, List.length_singleton]
    omega⟩

theorem mem_append (w : Window n α) (x y : α) (h : y ∈ (w.append x).items) :
    y ∈ w.items ∨ y = x := by
  have hmem : y ∈ w.items ++ [x] := List.mem_of_mem_drop h
  rcases List.mem_append.mp hmem with hw | hx
  · exact Or.inl hw
  · exact Or.inr (List.mem_singleton.mp hx)

/-- The item is in the window, with at most `j` newer ones. -/
def Recent (w : Window n α) (x : α) (j : Nat) : Prop :=
  ∃ older newer, w.items = older ++ x :: newer ∧ newer.length ≤ j

theorem Recent.mem {w : Window n α} {x : α} {j : Nat} (h : w.Recent x j) : x ∈ w.items := by
  rcases h with ⟨older, newer, hitems, _⟩
  rw [hitems]
  exact List.mem_append_right _ (List.mem_cons_self ..)

theorem Recent.mono {w : Window n α} {x : α} {i j : Nat} (h : w.Recent x i) (hij : i ≤ j) :
    w.Recent x j := by
  rcases h with ⟨older, newer, hitems, hlen⟩
  exact ⟨older, newer, hitems, Nat.le_trans hlen hij⟩

theorem recent_append_self (w : Window n α) (x : α) (hn : 0 < n) : (w.append x).Recent x 0 := by
  have hb := w.bounded
  refine ⟨w.items.drop (w.items.length + 1 - n), [], ?_, Nat.le_refl 0⟩
  simp only [append]
  rw [List.drop_append_of_le_length (by omega)]

/-- An append makes the item one older, and does not drop it while there is room. -/
theorem Recent.append {w : Window n α} {x : α} {j : Nat} (h : w.Recent x j) (y : α)
    (hj : j + 1 < n) : (w.append y).Recent x (j + 1) := by
  have hb := w.bounded
  rcases h with ⟨older, newer, hitems, hlen⟩
  have hcount : w.items.length = older.length + (newer.length + 1) := by
    rw [hitems, List.length_append, List.length_cons]
  refine ⟨older.drop (w.items.length + 1 - n), newer ++ [y], ?_, ?_⟩
  · simp only [Window.append]
    rw [hitems, List.append_assoc, List.cons_append,
      List.drop_append_of_le_length (by rw [← hitems]; omega)]
  · rw [List.length_append, List.length_singleton]
    omega

/-- Both windows end in the same items, and what either has before them is
    among the old ones. -/
def AgreeOff (old : List α) (w w' : Window n α) : Prop :=
  ∃ before before' newer, w.items = before ++ newer ∧ w'.items = before' ++ newer ∧
    (∀ x ∈ before, x ∈ old) ∧ ∀ x ∈ before', x ∈ old

/-- An append to a window of some items before others drops one of the former
    as long as there is one. -/
theorem append_split {w : Window n α} {before newer : List α} (h : w.items = before ++ newer)
    (x : α) : ∃ d, (w.append x).items =
      before.drop d ++ (newer ++ [x]).drop (newer.length + 1 - n) := by
  have hb := w.bounded
  have hlen : w.items.length = before.length + newer.length := by rw [h, List.length_append]
  refine ⟨w.items.length + 1 - n, ?_⟩
  simp only [append]
  rw [hlen, h, List.append_assoc, List.drop_append]
  -- What is left to drop once the first part is gone.
  have hrest : before.length + newer.length + 1 - n - before.length = newer.length + 1 - n := by
    omega
  rw [hrest]

theorem AgreeOff.append {old : List α} {w w' : Window n α} (h : AgreeOff old w w') (x : α) :
    AgreeOff old (w.append x) (w'.append x) := by
  rcases h with ⟨before, before', newer, hw, hw', hold, hold'⟩
  rcases append_split hw x with ⟨d, hd⟩
  rcases append_split hw' x with ⟨d', hd'⟩
  exact ⟨_, _, _, hd, hd', fun y hy => hold y (List.mem_of_mem_drop hy),
    fun y hy => hold' y (List.mem_of_mem_drop hy)⟩

theorem agreeOff_append (w : Window n α) (x : α) : AgreeOff (w.items ++ [x]) (w.append x) w := by
  refine ⟨(w.append x).items, w.items, [], (List.append_nil _).symm, (List.append_nil _).symm,
    fun y hy => ?_, fun y hy => List.mem_append_left _ hy⟩
  rcases w.mem_append x y hy with hy | hy
  · exact List.mem_append_left _ hy
  · exact List.mem_append_right _ (List.mem_singleton.mpr hy)

theorem AgreeOff.any_eq {old : List α} {w w' : Window n α} (h : AgreeOff old w w')
    (p : α → Bool) (hp : old.any p = false) : w.items.any p = w'.items.any p := by
  rcases h with ⟨before, before', newer, hw, hw', hold, hold'⟩
  have hnone : ∀ xs : List α, (∀ x ∈ xs, x ∈ old) → xs.any p = false := by
    intro xs hxs
    rw [List.any_eq_false] at hp ⊢
    exact fun x hx => hp x (hxs x hx)
  rw [hw, hw', List.any_append, List.any_append, hnone before hold, hnone before' hold']

-- Two windows that differ by an append are not to be compared item by item.
attribute [irreducible] append

end Window

end WhisperNet
