import Mathlib.Data.List.Nodup

/-!
# Chains of Hashes

A list of texts is hashed from its end: the digest of a list is that of the
digest of its tail and the digest of its head, one after the other, and the empty
list has a fixed value.

No hash with digests of a fixed length is injective, so nothing is assumed of it
on all texts. `CollisionFree` says of finitely many that no two of them collide
and none has the fixed value as its digest. For two lists it is enough that this
holds of what is hashed on the way.

## Main definitions

* `hashChain`: The digest of a list.
* `chainInputs`: What is hashed for it.
* `CollisionFree`: No collision among some texts.

## Theorems

* `length_hashChain`: The length of the digest.
* `collisionFree_of_nodup`: Digests that are all different.
* `hashChain_inj`: Only equal lists have the same digest.
-/

namespace WhisperNet

section HashChain

variable {α : Type} (hash : List α → List α) (base : List α)

/-- The digest of a list, with `base` for the empty one. -/
def hashChain : List (List α) → List α
  | [] => base
  | x :: xs => hash (hashChain xs ++ hash x)

/-- What is hashed for the digest of a list. -/
def chainInputs : List (List α) → List (List α)
  | [] => []
  | x :: xs => x :: (hashChain hash base xs ++ hash x) :: chainInputs xs

/-- The texts have digests of their own, and none of these is `base`. -/
structure CollisionFree (texts : List (List α)) : Prop where
  inj : ∀ a ∈ texts, ∀ b ∈ texts, hash a = hash b → a = b
  base : ∀ a ∈ texts, hash a ≠ base

variable {hash base} {n : Nat}

theorem CollisionFree.mono {texts texts' : List (List α)} (h : CollisionFree hash base texts)
    (hsub : texts' ⊆ texts) : CollisionFree hash base texts' :=
  ⟨fun a ha b hb => h.inj a (hsub ha) b (hsub hb), fun a ha => h.base a (hsub ha)⟩

/-- It is enough that the digests and `base` are all different. -/
theorem collisionFree_of_nodup {texts : List (List α)} (h : (base :: texts.map hash).Nodup) :
    CollisionFree hash base texts := by
  rcases List.nodup_cons.mp h with ⟨hbase, hnodup⟩
  refine ⟨fun a ha b hb heq => List.inj_on_of_nodup_map hnodup ha hb heq, fun a ha heq => ?_⟩
  rw [← heq] at hbase
  exact hbase (List.mem_map_of_mem ha)

theorem length_hashChain (hlen : ∀ a, (hash a).length = n) (hbase : base.length = n)
    (xs : List (List α)) : (hashChain hash base xs).length = n := by
  cases xs with
  | nil => exact hbase
  | cons x xs => exact hlen _

/-- Only equal lists have the same digest. -/
theorem hashChain_inj (hlen : ∀ a, (hash a).length = n) (hbase : base.length = n)
    {xs ys : List (List α)}
    (hfree : CollisionFree hash base (chainInputs hash base xs ++ chainInputs hash base ys))
    (h : hashChain hash base xs = hashChain hash base ys) : xs = ys := by
  induction xs generalizing ys with
  | nil =>
      cases ys with
      | nil => rfl
      | cons y ys =>
          have hmem : hashChain hash base ys ++ hash y ∈ chainInputs hash base (y :: ys) :=
            List.mem_cons_of_mem _ (List.mem_cons_self ..)
          exact absurd h.symm (hfree.base _ (List.mem_append_right _ hmem))
  | cons x xs ih =>
      cases ys with
      | nil =>
          have hmem : hashChain hash base xs ++ hash x ∈ chainInputs hash base (x :: xs) :=
            List.mem_cons_of_mem _ (List.mem_cons_self ..)
          exact absurd h (hfree.base _ (List.mem_append_left _ hmem))
      | cons y ys =>
          have hx : hashChain hash base xs ++ hash x ∈ chainInputs hash base (x :: xs) :=
            List.mem_cons_of_mem _ (List.mem_cons_self ..)
          have hy : hashChain hash base ys ++ hash y ∈ chainInputs hash base (y :: ys) :=
            List.mem_cons_of_mem _ (List.mem_cons_self ..)
          have hinner := hfree.inj _ (List.mem_append_left _ hx) _ (List.mem_append_right _ hy) h
          -- Digests have one length, so the two halves agree.
          have hlength : (hashChain hash base xs).length = (hashChain hash base ys).length := by
            rw [length_hashChain hlen hbase, length_hashChain hlen hbase]
          rcases List.append_inj hinner hlength with ⟨htail, hhead⟩
          have hxy : x = y := hfree.inj _ (List.mem_append_left _ (List.mem_cons_self ..)) _
            (List.mem_append_right _ (List.mem_cons_self ..)) hhead
          have hsub : chainInputs hash base xs ++ chainInputs hash base ys ⊆
              chainInputs hash base (x :: xs) ++ chainInputs hash base (y :: ys) := by
            intro a ha
            rcases List.mem_append.mp ha with ha | ha
            · exact List.mem_append_left _ (List.mem_cons_of_mem _ (List.mem_cons_of_mem _ ha))
            · exact List.mem_append_right _ (List.mem_cons_of_mem _ (List.mem_cons_of_mem _ ha))
          rw [hxy, ih (hfree.mono hsub) htail]

end HashChain

end WhisperNet
