import Mathlib.Data.Set.Insert
import Mathlib.Logic.Function.Basic

/-!
# Custody of What Runs

Holders hold things that run, and a thing that runs and that nobody holds is lost:
nobody can end it any more. Things are granted to a holder when they are started,
pass from one holder to another, and are released when they are told to end. They can
also end by themselves, and are then still held.

As long as what is granted is new, nothing has two holders. Then there is one way to
lose something: a holder that is handed the things of another drops its own, and some
of these still run. `kept_apply_iff` says that this is all.

## Main definitions

* `Custody`: What is held, what runs, and what has been granted so far.
* `Move`: What can happen to it.
* `Custody.Proper`: Nothing has two holders, and all of it has been granted.
* `Custody.Kept`: What runs is held.
* `Custody.Sound`: Only what is new is granted, and nobody is handed its own things.
* `Custody.Safe`: Nobody drops what still runs.

## Theorems

* `Custody.proper_apply`: Sound moves keep the custody proper.
* `Custody.kept_apply_iff`: They keep what runs exactly if they are safe.
-/

namespace WhisperNet

/-- What the holders hold, what runs, and what has been granted so far. -/
structure Custody (κ α : Type) where
  holds : κ → Set α
  running : Set α
  granted : Set α

/-- `pass x y` hands what `x` holds to `y`, which drops what it held before. -/
inductive Move (κ α : Type)
  | stay
  | grant (x : κ) (a : α)
  | pass (x y : κ)
  | release (x : κ) (a : α)
  | fade (a : α)

namespace Custody

variable {κ α : Type} [DecidableEq κ]

def apply (c : Custody κ α) : Move κ α → Custody κ α
  | .stay => c
  | .grant x a => {
      holds := Function.update c.holds x (insert a (c.holds x))
      running := insert a c.running
      granted := insert a c.granted }
  | .pass x y => { c with
      holds := Function.update (Function.update c.holds y (c.holds x)) x ∅ }
  | .release x a => { c with
      holds := Function.update c.holds x (c.holds x \ {a})
      running := c.running \ {a} }
  | .fade a => { c with running := c.running \ {a} }

omit [DecidableEq κ] in
/-- Nothing has two holders, and what is held or runs has been granted. -/
structure Proper (c : Custody κ α) : Prop where
  apart : ∀ x y a, a ∈ c.holds x → a ∈ c.holds y → x = y
  held : ∀ x, c.holds x ⊆ c.granted
  runs : c.running ⊆ c.granted

/-- What runs is held. -/
def Kept (c : Custody κ α) : Prop := ∀ a ∈ c.running, ∃ x, a ∈ c.holds x

def Sound (c : Custody κ α) : Move κ α → Prop
  | .grant _ a => a ∉ c.granted
  | .pass x y => x ≠ y
  | _ => True

/-- Who is handed something holds nothing that still runs. -/
def Safe (c : Custody κ α) : Move κ α → Prop
  | .pass _ y => ∀ a ∈ c.holds y, a ∉ c.running
  | _ => True

variable {c : Custody κ α}

omit [DecidableEq κ] in
/-- Holders that hold parts of what they held, with the same things granted. -/
theorem Proper.of_part (h : c.Proper) {d : Custody κ α} (hholds : ∀ x, d.holds x ⊆ c.holds x)
    (hruns : d.running ⊆ c.running) (hgranted : d.granted = c.granted) : d.Proper where
  apart x y a hx hy := h.apart x y a (hholds x hx) (hholds y hy)
  held x := hgranted ▸ (hholds x).trans (h.held x)
  runs := hgranted ▸ hruns.trans h.runs

/-- Who holds something after a grant held it before, or was granted it. -/
theorem mem_grant {x y : κ} {a b : α} :
    b ∈ (c.apply (.grant x a)).holds y ↔ b ∈ c.holds y ∨ (y = x ∧ b = a) := by
  by_cases hy : y = x
  · rw [hy]
    simp only [apply, Function.update_self, Set.mem_insert_iff, true_and]
    exact or_comm
  · simp only [apply, Function.update_of_ne hy, hy, false_and, or_false]

theorem mem_pass {x y z : κ} {b : α} (hne : x ≠ y) :
    b ∈ (c.apply (.pass x y)).holds z ↔
      (z = y ∧ b ∈ c.holds x) ∨ (z ≠ x ∧ z ≠ y ∧ b ∈ c.holds z) := by
  by_cases hx : z = x
  · rw [hx]
    simp only [apply, Function.update_self, Set.mem_empty_iff_false, hne, false_and, ne_eq,
      not_true_eq_false, or_self]
  · by_cases hy : z = y
    · rw [hy]
      simp only [apply, Function.update_of_ne (Ne.symm hne), Function.update_self, true_and, ne_eq,
        not_true_eq_false, false_and, and_false, or_false]
    · simp only [apply, Function.update_of_ne hx, Function.update_of_ne hy, hx, hy, false_and,
        ne_eq, not_false_eq_true, true_and, false_or]

theorem mem_release {x y : κ} {a b : α} :
    b ∈ (c.apply (.release x a)).holds y ↔ b ∈ c.holds y ∧ ¬(y = x ∧ b = a) := by
  by_cases hy : y = x
  · rw [hy]
    simp only [apply, Function.update_self, Set.mem_sdiff, Set.mem_singleton_iff, true_and]
  · simp only [apply, Function.update_of_ne hy, hy, false_and, not_false_eq_true, and_true]

/-- Sound moves keep the custody proper. -/
theorem proper_apply {m : Move κ α} (h : c.Proper) (hm : c.Sound m) : (c.apply m).Proper := by
  cases m with
  | stay => exact h
  | grant x a =>
      refine ⟨fun y z b hy hz => ?_, fun y b hb => ?_, Set.insert_subset_insert h.runs⟩
      · rcases mem_grant.mp hy with hy' | ⟨hyx, hyb⟩ <;>
          rcases mem_grant.mp hz with hz' | ⟨hzx, hzb⟩
        · exact h.apart y z b hy' hz'
        -- Nobody held what is granted now.
        · exact absurd (h.held y (hzb ▸ hy')) hm
        · exact absurd (h.held z (hyb ▸ hz')) hm
        · rw [hyx, hzx]
      · rcases mem_grant.mp hb with hb | ⟨_, rfl⟩
        · exact Set.mem_insert_of_mem _ (h.held y hb)
        · exact Set.mem_insert ..
  | pass x y =>
      refine ⟨fun z w b hz hw => ?_, fun z b hb => ?_, h.runs⟩
      · rcases (mem_pass hm).mp hz with ⟨hzy, hz'⟩ | ⟨hzx, _, hz'⟩ <;>
          rcases (mem_pass hm).mp hw with ⟨hwy, hw'⟩ | ⟨hwx, _, hw'⟩
        · rw [hzy, hwy]
        · exact absurd (h.apart w x b hw' hz') hwx
        · exact absurd (h.apart z x b hz' hw') hzx
        · exact h.apart z w b hz' hw'
      · rcases (mem_pass hm).mp hb with ⟨_, hb⟩ | ⟨_, _, hb⟩
        · exact h.held x hb
        · exact h.held z hb
  | release x a =>
      exact h.of_part (fun y b hb => (mem_release.mp hb).1) (fun _ hb => hb.1) rfl
  | fade a => exact h.of_part (fun y => subset_rfl) (fun _ hb => hb.1) rfl

/-- Nothing is lost exactly if the move is safe. -/
theorem kept_apply_iff {m : Move κ α} (h : c.Proper) (hm : c.Sound m) (hkept : c.Kept) :
    (c.apply m).Kept ↔ c.Safe m := by
  cases m with
  | stay => exact ⟨fun _ => trivial, fun _ => hkept⟩
  | grant x a =>
      refine ⟨fun _ => trivial, fun _ b hb => ?_⟩
      rcases Set.mem_insert_iff.mp hb with rfl | hb
      · exact ⟨x, mem_grant.mpr (Or.inr ⟨rfl, rfl⟩)⟩
      · rcases hkept b hb with ⟨y, hy⟩
        exact ⟨y, mem_grant.mpr (Or.inl hy)⟩
  | pass x y =>
      constructor
      · intro hafter a ha hruns
        -- The thing is with `y` now, which holds what `x` held, so `x` held it too.
        rcases hafter a hruns with ⟨z, hz⟩
        rcases (mem_pass hm).mp hz with ⟨_, hz⟩ | ⟨_, hzy, hz⟩
        · exact hm (h.apart x y a hz ha)
        · exact hzy (h.apart z y a hz ha)
      · intro hsafe a hruns
        rcases hkept a hruns with ⟨z, hz⟩
        by_cases hzx : z = x
        · exact ⟨y, (mem_pass hm).mpr (Or.inl ⟨rfl, hzx ▸ hz⟩)⟩
        · have hzy : z ≠ y := fun heq => hsafe a (heq ▸ hz) hruns
          exact ⟨z, (mem_pass hm).mpr (Or.inr ⟨hzx, hzy, hz⟩)⟩
  | release x a =>
      refine ⟨fun _ => trivial, fun _ b hb => ?_⟩
      rcases hkept b hb.1 with ⟨y, hy⟩
      exact ⟨y, mem_release.mpr ⟨hy, fun heq => hb.2 heq.2⟩⟩
  | fade a => exact ⟨fun _ => trivial, fun _ b hb => hkept b hb.1⟩

end Custody

end WhisperNet
