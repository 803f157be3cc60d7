import Mathlib.Algebra.Order.BigOperators.Group.List
import Mathlib.Algebra.Order.Ring.Nat
import Mathlib.Data.List.Nodup

/-!
# Insertion-Ordered Dictionaries

A finite map that remembers the order in which its keys were first assigned,
the way the dictionaries of a scripting language do: assigning to a key that
is present replaces its value in place, assigning to a new key appends it, and
iteration follows that order.

The entries are a list and the absence of duplicate keys is a field of the
structure, so a dictionary with two values under one key cannot be built. The
work is done on the underlying lists (`lookup`, `assign`, `discard`) and the
structure only carries the invariant through.

Everything a client needs is the algebra of `get?` against the three ways a
dictionary changes, plus `mem_values`, which turns an iteration over the
values back into a lookup.

## Main definitions

* `Dict`: A list of entries with pairwise distinct keys.
* `Dict.get?`: The value under a key.
* `Dict.set`: Assignment, in place or at the end.
* `Dict.erase`: Removal of a key.
* `Dict.mapValues`: An update of every value in place.
* `Dict.mapUntil`: An update of the values in order that can stop early.

## Theorems

* `Dict.get?_set_self`: Reading back the key just assigned.
* `Dict.get?_set_of_ne`: An assignment leaves the other keys alone.
* `Dict.get?_set`: The two as one equation.
* `Dict.set_set`: Of two assignments to one key the second counts.
* `assign_view`, `lookup_view`: A list of entries seen through a function of
  the values.
* `Dict.get?_erase_self`: A removed key has no value.
* `Dict.get?_erase_of_ne`: A removal leaves the other keys alone.
* `Dict.get?_mapValues`: Updating values in place commutes with lookup.
* `Dict.get?_mapUntil`: Stopping early, each value is the old or the new one.
* `Dict.get?_mapUntil_of_unflagged`: Not stopping early, it is the new one.
* `Dict.mem_entries_iff`: An entry is a key with the value found under it.
* `Dict.mem_keys`: A key is iterated over exactly when it has a value.
* `Dict.filter_entries`: The entries with a key are its value, if it has one.
* `Dict.mem_values`: A value is iterated over exactly when some key holds it.
* `Dict.sum_values_le`, `Dict.sum_values_set`: Sums over the values.
-/

namespace WhisperNet

/-- The first value filed under a key. -/
def lookup {κ α : Type} [DecidableEq κ] (k : κ) : List (κ × α) → Option α
  | [] => none
  | e :: es => if e.1 = k then some e.2 else lookup k es

/-- Replace the value of a key that is present, else append it. -/
def assign {κ α : Type} [DecidableEq κ] (k : κ) (v : α) : List (κ × α) → List (κ × α)
  | [] => [(k, v)]
  | e :: es => if e.1 = k then (e.1, v) :: es else e :: assign k v es

/-- Drop the entries of a key. -/
def discard {κ α : Type} [DecidableEq κ] (k : κ) (es : List (κ × α)) : List (κ × α) :=
  es.filter (fun e => e.1 ≠ k)

/-- Apply `f` to the values in order, up to and including the first one it
    flags; the values after that one are left alone. -/
def mapUntil {κ α : Type} (f : α → α × Bool) : List (κ × α) → List (κ × α)
  | [] => []
  | e :: es => if (f e.2).2 then (e.1, (f e.2).1) :: es else (e.1, (f e.2).1) :: mapUntil f es

theorem keys_mapUntil {κ α : Type} (f : α → α × Bool) (es : List (κ × α)) :
    (mapUntil f es).map Prod.fst = es.map Prod.fst := by
  induction es with
  | nil => rfl
  | cons e es ih =>
      by_cases hf : (f e.2).2 = true
      · simp only [mapUntil, if_pos hf, List.map_cons]
      · simp only [mapUntil, if_neg hf, List.map_cons, ih]

/-- Where nothing is flagged, every value is updated. -/
theorem mapUntil_eq_map {κ α : Type} (f : α → α × Bool) (es : List (κ × α))
    (h : ∀ e ∈ es, (f e.2).2 = false) :
    mapUntil f es = es.map (fun e => (e.1, (f e.2).1)) := by
  induction es with
  | nil => rfl
  | cons e es ih =>
      have hf := h e (List.mem_cons_self ..)
      rw [mapUntil, if_neg (by rw [hf]; exact Bool.false_ne_true), List.map_cons,
        ih (fun e' he' => h e' (List.mem_cons_of_mem _ he'))]

section Lists

variable {κ α : Type} [DecidableEq κ]

theorem lookup_eq_none_iff (k : κ) (es : List (κ × α)) :
    lookup k es = none ↔ k ∉ es.map Prod.fst := by
  induction es with
  | nil => simp only [lookup, List.map_nil, List.not_mem_nil, not_false_eq_true]
  | cons e es ih =>
      by_cases he : e.1 = k
      · simp only [lookup, if_true, List.map_cons, List.mem_cons, he, true_or, not_true,
          reduceCtorEq]
      · simp only [lookup, if_neg he, List.map_cons, List.mem_cons, ih, not_or]
        exact ⟨fun h => ⟨fun hc => he hc.symm, h⟩, fun h => h.2⟩

theorem lookup_assign_self (k : κ) (v : α) (es : List (κ × α)) :
    lookup k (assign k v es) = some v := by
  induction es with
  | nil => simp only [assign, lookup, if_true]
  | cons e es ih =>
      by_cases he : e.1 = k
      · simp only [assign, if_pos he, lookup]
      · simp only [assign, if_neg he, lookup, ih]

theorem lookup_assign_of_ne (k k' : κ) (v : α) (es : List (κ × α)) (hne : k' ≠ k) :
    lookup k' (assign k v es) = lookup k' es := by
  induction es with
  | nil => simp only [assign, lookup, if_neg (fun hc => hne (Eq.symm hc))]
  | cons e es ih =>
      by_cases he : e.1 = k
      · have hk : ¬ e.1 = k' := fun hc => hne (by rw [← hc, he])
        simp only [assign, if_pos he, lookup, if_neg hk]
      · simp only [assign, if_neg he, lookup, ih]

theorem mem_keys_assign (k k' : κ) (v : α) (es : List (κ × α)) :
    k' ∈ (assign k v es).map Prod.fst ↔ k' = k ∨ k' ∈ es.map Prod.fst := by
  induction es with
  | nil => simp only [assign, List.map_cons, List.map_nil, List.mem_singleton, List.not_mem_nil,
      or_false]
  | cons e es ih =>
      by_cases he : e.1 = k
      · simp only [assign, if_true, List.map_cons, List.mem_cons, he]
        tauto
      · simp only [assign, if_neg he, List.map_cons, List.mem_cons, ih]
        tauto

theorem assign_same (k : κ) (v : α) (es : List (κ × α)) (h : lookup k es = some v) :
    assign k v es = es := by
  induction es with
  | nil => exact (nomatch h)
  | cons e es ih =>
      by_cases he : e.1 = k
      · rw [lookup, if_pos he, Option.some.injEq] at h
        rw [assign, if_pos he, ← h]
      · rw [lookup, if_neg he] at h
        rw [assign, if_neg he, ih h]

/-- A key that is not present is appended. -/
theorem assign_new (k : κ) (v : α) (es : List (κ × α)) (h : k ∉ es.map Prod.fst) :
    assign k v es = es ++ [(k, v)] := by
  induction es with
  | nil => rfl
  | cons e es ih =>
      rw [List.map_cons, List.mem_cons, not_or] at h
      rw [assign, if_neg (fun hc => h.1 hc.symm), ih h.2, List.cons_append]

/-- Of two assignments to one key the second counts. -/
theorem assign_assign (k : κ) (v w : α) (es : List (κ × α)) :
    assign k w (assign k v es) = assign k w es := by
  induction es with
  | nil => simp only [assign, if_true]
  | cons e es ih =>
      by_cases he : e.1 = k
      · simp only [assign, if_pos he]
      · simp only [assign, if_neg he, ih]

/-- An assignment seen through a function of the values. -/
theorem assign_view {β : Type} (g : α → β) (k : κ) (v : α) (es : List (κ × α)) :
    (assign k v es).map (fun e => (e.1, g e.2)) =
      assign k (g v) (es.map (fun e => (e.1, g e.2))) := by
  induction es with
  | nil => rfl
  | cons e es ih =>
      by_cases he : e.1 = k
      · simp only [assign, if_pos he, List.map_cons]
      · simp only [assign, if_neg he, List.map_cons, ih]

theorem lookup_view {β : Type} (g : α → β) (k : κ) (es : List (κ × α)) :
    lookup k (es.map (fun e => (e.1, g e.2))) = (lookup k es).map g := by
  induction es with
  | nil => rfl
  | cons e es ih =>
      by_cases he : e.1 = k
      · simp only [List.map_cons, lookup, if_pos he, Option.map_some]
      · simp only [List.map_cons, lookup, if_neg he, ih]

theorem mem_assign (k : κ) (v : α) (es : List (κ × α)) (e : κ × α) (h : e ∈ assign k v es) :
    e = (k, v) ∨ e ∈ es := by
  induction es with
  | nil => exact Or.inl (List.mem_singleton.mp h)
  | cons e' es ih =>
      by_cases he : e'.1 = k
      · rw [assign, if_pos he, List.mem_cons] at h
        rcases h with h | h
        · left
          rw [h, he]
        · exact Or.inr (List.mem_cons_of_mem _ h)
      · rw [assign, if_neg he, List.mem_cons] at h
        rcases h with h | h
        · right
          rw [h]
          exact List.mem_cons_self ..
        · rcases ih h with h | h
          · exact Or.inl h
          · exact Or.inr (List.mem_cons_of_mem _ h)

theorem nodup_keys_assign (k : κ) (v : α) (es : List (κ × α)) (h : (es.map Prod.fst).Nodup) :
    ((assign k v es).map Prod.fst).Nodup := by
  induction es with
  | nil => simp only [assign, List.map_cons, List.map_nil, List.nodup_singleton]
  | cons e es ih =>
      rw [List.map_cons, List.nodup_cons] at h
      by_cases he : e.1 = k
      · simp only [assign, if_pos he, List.map_cons, List.nodup_cons]
        exact h
      · simp only [assign, if_neg he, List.map_cons, List.nodup_cons, mem_keys_assign]
        refine ⟨?_, ih h.2⟩
        rintro (hc | hc)
        · exact he hc
        · exact h.1 hc

theorem lookup_discard_self (k : κ) (es : List (κ × α)) : lookup k (discard k es) = none := by
  rw [lookup_eq_none_iff]
  intro hmem
  rcases List.mem_map.mp hmem with ⟨e, he, hek⟩
  have hne := (List.mem_filter.mp he).2
  simp only [hek, ne_eq, not_true_eq_false, decide_false, Bool.false_eq_true] at hne

theorem lookup_discard_of_ne (k k' : κ) (es : List (κ × α)) (hne : k' ≠ k) :
    lookup k' (discard k es) = lookup k' es := by
  unfold discard
  induction es with
  | nil => rfl
  | cons e es ih =>
      by_cases he : e.1 = k
      · have hk : ¬ e.1 = k' := fun hc => hne (by rw [← hc, he])
        rw [List.filter_cons_of_neg (by simp only [he, ne_eq, not_true_eq_false, decide_false,
          Bool.false_eq_true, not_false_eq_true]), ih, lookup, if_neg hk]
      · rw [List.filter_cons_of_pos (by simp only [he, ne_eq, not_false_eq_true, decide_true]),
          lookup, lookup, ih]

theorem lookup_map (f : κ → α → α) (k : κ) (es : List (κ × α)) :
    lookup k (es.map (fun e => (e.1, f e.1 e.2))) = (lookup k es).map (f k) := by
  induction es with
  | nil => rfl
  | cons e es ih =>
      by_cases he : e.1 = k
      · simp only [List.map_cons, lookup, if_true, Option.map_some, he]
      · simp only [List.map_cons, lookup, if_neg he, ih]

/-- A value after `mapUntil` is the old one or the updated one. -/
theorem lookup_mapUntil (f : α → α × Bool) (k : κ) (es : List (κ × α)) :
    lookup k (mapUntil f es) = lookup k es ∨
      lookup k (mapUntil f es) = (lookup k es).map (fun v => (f v).1) := by
  induction es with
  | nil => exact Or.inl rfl
  | cons e es ih =>
      by_cases he : e.1 = k
      · right
        by_cases hf : (f e.2).2 = true
        · simp only [mapUntil, if_pos hf, lookup, if_pos he, Option.map_some]
        · simp only [mapUntil, if_neg hf, lookup, if_pos he, Option.map_some]
      · by_cases hf : (f e.2).2 = true
        · left
          simp only [mapUntil, if_pos hf, lookup, if_neg he]
        · simp only [mapUntil, if_neg hf, lookup, if_neg he]
          exact ih

theorem mem_iff_lookup (k : κ) (v : α) (es : List (κ × α)) (h : (es.map Prod.fst).Nodup) :
    (k, v) ∈ es ↔ lookup k es = some v := by
  induction es with
  | nil => simp only [List.not_mem_nil, lookup, reduceCtorEq]
  | cons e es ih =>
      rw [List.map_cons, List.nodup_cons] at h
      by_cases he : e.1 = k
      · -- The head is the only entry of this key.
        have hnot : (k, v) ∉ es := fun hc => h.1 (by
          rw [he]
          exact List.mem_map.mpr ⟨(k, v), hc, rfl⟩)
        simp only [List.mem_cons, lookup, if_pos he, Option.some.injEq, hnot, or_false]
        constructor
        · intro hc
          rw [← hc]
        · intro hc
          exact Prod.ext he.symm hc.symm
      · have hhead : ¬ (k, v) = e := fun hc => he (by rw [← hc])
        simp only [List.mem_cons, hhead, false_or, lookup, if_neg he]
        exact ih h.2

end Lists

/-- A dictionary: its entries in order of first assignment, no key twice. -/
structure Dict (κ α : Type) where
  entries : List (κ × α)
  nodup : (entries.map Prod.fst).Nodup

namespace Dict

variable {κ α : Type}

@[ext] theorem ext {d d' : Dict κ α} (h : d.entries = d'.entries) : d = d' := by
  cases d
  cases d'
  cases h
  rfl

variable [DecidableEq κ]

instance [DecidableEq α] : DecidableEq (Dict κ α) := fun d d' =>
  decidable_of_iff (d.entries = d'.entries) ⟨Dict.ext, fun h => by rw [h]⟩

def empty : Dict κ α := ⟨[], List.nodup_nil⟩

def get? (d : Dict κ α) (k : κ) : Option α := lookup k d.entries

def set (d : Dict κ α) (k : κ) (v : α) : Dict κ α :=
  ⟨assign k v d.entries, nodup_keys_assign k v d.entries d.nodup⟩

def erase (d : Dict κ α) (k : κ) : Dict κ α :=
  ⟨discard k d.entries, d.nodup.sublist (List.filter_sublist.map Prod.fst)⟩

def mapValues (d : Dict κ α) (f : κ → α → α) : Dict κ α :=
  ⟨d.entries.map (fun e => (e.1, f e.1 e.2)), by
    rw [List.map_map]
    exact d.nodup⟩

def mapUntil (d : Dict κ α) (f : α → α × Bool) : Dict κ α :=
  ⟨WhisperNet.mapUntil f d.entries, by
    rw [keys_mapUntil]
    exact d.nodup⟩

def keys (d : Dict κ α) : List κ := d.entries.map Prod.fst

def values (d : Dict κ α) : List α := d.entries.map Prod.snd

@[simp] theorem get?_empty (k : κ) : (empty : Dict κ α).get? k = none := rfl

@[simp] theorem get?_set_self (d : Dict κ α) (k : κ) (v : α) : (d.set k v).get? k = some v :=
  lookup_assign_self k v d.entries

theorem get?_set_of_ne (d : Dict κ α) (k k' : κ) (v : α) (hne : k' ≠ k) :
    (d.set k v).get? k' = d.get? k' :=
  lookup_assign_of_ne k k' v d.entries hne

theorem get?_set (d : Dict κ α) (k k' : κ) (v : α) :
    (d.set k v).get? k' = if k' = k then some v else d.get? k' := by
  by_cases h : k' = k
  · rw [if_pos h, h, get?_set_self]
  · rw [if_neg h, get?_set_of_ne d k k' v h]

/-- Assigning the value that is there changes nothing. -/
theorem set_same (d : Dict κ α) (k : κ) (v : α) (h : d.get? k = some v) : d.set k v = d :=
  ext (assign_same k v d.entries h)

/-- Of two assignments to one key the second counts. -/
theorem set_set (d : Dict κ α) (k : κ) (v w : α) : (d.set k v).set k w = d.set k w :=
  ext (assign_assign k v w d.entries)

/-- A new key is filed at the end. -/
theorem entries_set_new (d : Dict κ α) (k : κ) (v : α) (h : k ∉ d.entries.map Prod.fst) :
    (d.set k v).entries = d.entries ++ [(k, v)] :=
  assign_new k v d.entries h

@[simp] theorem get?_erase_self (d : Dict κ α) (k : κ) : (d.erase k).get? k = none :=
  lookup_discard_self k d.entries

theorem get?_erase_of_ne (d : Dict κ α) (k k' : κ) (hne : k' ≠ k) :
    (d.erase k).get? k' = d.get? k' :=
  lookup_discard_of_ne k k' d.entries hne

@[simp] theorem get?_mapValues (d : Dict κ α) (f : κ → α → α) (k : κ) :
    (d.mapValues f).get? k = (d.get? k).map (f k) :=
  lookup_map f k d.entries

theorem get?_mapUntil (d : Dict κ α) (f : α → α × Bool) (k : κ) :
    (d.mapUntil f).get? k = d.get? k ∨
      (d.mapUntil f).get? k = (d.get? k).map (fun v => (f v).1) :=
  lookup_mapUntil f k d.entries

/-- Where nothing is flagged, every value is the updated one. -/
theorem get?_mapUntil_of_unflagged (d : Dict κ α) (f : α → α × Bool)
    (h : ∀ v ∈ d.values, (f v).2 = false) (k : κ) :
    (d.mapUntil f).get? k = (d.get? k).map (fun v => (f v).1) := by
  have hmap := mapUntil_eq_map f d.entries
    (fun e he => h e.2 (List.mem_map.mpr ⟨e, he, rfl⟩))
  change lookup k (WhisperNet.mapUntil f d.entries) = _
  rw [hmap]
  exact lookup_map (fun _ v => (f v).1) k d.entries

theorem mem_entries_iff (d : Dict κ α) (k : κ) (v : α) :
    (k, v) ∈ d.entries ↔ d.get? k = some v :=
  mem_iff_lookup k v d.entries d.nodup

theorem mem_keys (d : Dict κ α) (k : κ) : k ∈ d.keys ↔ ∃ v, d.get? k = some v := by
  constructor
  · intro h
    rcases List.mem_map.mp h with ⟨e, he, hek⟩
    exact ⟨e.2, (mem_entries_iff d k e.2).mp (by rw [← hek]; exact he)⟩
  · rintro ⟨v, hv⟩
    exact List.mem_map.mpr ⟨(k, v), (mem_entries_iff d k v).mpr hv, rfl⟩

/-- The values under a key, read off the entries. -/
theorem filter_entries (d : Dict κ α) (k : κ) :
    (d.entries.filter (fun e => e.1 = k)).map Prod.snd = (d.get? k).toList := by
  have hlist : ∀ es : List (κ × α), (es.map Prod.fst).Nodup →
      (es.filter (fun e => e.1 = k)).map Prod.snd = (lookup k es).toList := by
    intro es
    induction es with
    | nil => exact fun _ => rfl
    | cons e es ih =>
        intro hnodup
        rw [List.map_cons, List.nodup_cons] at hnodup
        rw [List.filter_cons, lookup]
        by_cases hkey : e.1 = k
        · -- The key is not in the rest.
          have hrest := (lookup_eq_none_iff k es).mpr (hkey ▸ hnodup.1)
          rw [if_pos (decide_eq_true hkey), if_pos hkey, List.map_cons, ih hnodup.2, hrest]
          rfl
        · rw [if_neg (fun hc => hkey (of_decide_eq_true hc)), if_neg hkey, ih hnodup.2]
  exact hlist d.entries d.nodup

theorem mem_values (d : Dict κ α) (v : α) : v ∈ d.values ↔ ∃ k, d.get? k = some v := by
  constructor
  · intro h
    rcases List.mem_map.mp h with ⟨e, he, hev⟩
    exact ⟨e.1, (mem_entries_iff d e.1 v).mp (by rw [← hev]; exact he)⟩
  · rintro ⟨k, hk⟩
    exact List.mem_map.mpr ⟨(k, v), (mem_entries_iff d k v).mpr hk, rfl⟩

/-- A sum over the values does not grow if every value that counts was there before,
    under the same key. -/
theorem sum_values_le (f : α → Nat) (d d' : Dict κ α)
    (h : ∀ k v, d'.get? k = some v → f v ≠ 0 → d.get? k = some v) :
    (d'.values.map f).sum ≤ (d.values.map f).sum := by
  have hentries : ∀ e : Dict κ α, e.values.map f = e.entries.map (fun x => f x.2) := by
    intro e
    unfold values
    rw [List.map_map]
    rfl
  rw [hentries, hentries]
  set counted := d'.entries.filter (fun e => f e.2 ≠ 0) with hcounted
  have hskip : ∀ es : List (κ × α), (es.map (fun e => f e.2)).sum =
      ((es.filter (fun e => f e.2 ≠ 0)).map (fun e => f e.2)).sum := by
    intro es
    induction es with
    | nil => rfl
    | cons e es ih =>
        rw [List.map_cons, List.sum_cons, ih, List.filter_cons]
        by_cases hzero : f e.2 = 0
        · have hout : decide (f e.2 ≠ 0) = false := decide_eq_false (fun hc => hc hzero)
          rw [hout, hzero, Nat.zero_add]
          rfl
        · rw [if_pos (decide_eq_true hzero), List.map_cons, List.sum_cons]
  have hsubset : counted ⊆ d.entries := by
    intro e he
    rw [hcounted, List.mem_filter, decide_eq_true_iff] at he
    exact (mem_entries_iff d e.1 e.2).mpr
      (h e.1 e.2 ((mem_entries_iff d' e.1 e.2).mp he.1) he.2)
  -- The entries that count are distinct, so they stand among those before.
  rcases List.subperm_of_subset (d'.nodup.of_map.filter _) hsubset with ⟨l, hperm, hsub⟩
  rw [hskip d'.entries, ← (hperm.map _).sum_eq]
  exact (hsub.map _).sum_le_sum (fun _ _ => Nat.zero_le _)

/-- A value that is filed adds at most what it counts. -/
theorem sum_values_set (f : α → Nat) (d : Dict κ α) (k : κ) (v : α) :
    ((d.set k v).values.map f).sum ≤ (d.values.map f).sum + f v := by
  have hlist : ∀ es : List (κ × α),
      (((assign k v es).map Prod.snd).map f).sum ≤ ((es.map Prod.snd).map f).sum + f v := by
    intro es
    induction es with
    | nil => exact (Nat.add_comm _ _).le
    | cons e es ih =>
        unfold assign
        split
        · simp only [List.map_cons, List.sum_cons]
          omega
        · simp only [List.map_cons, List.sum_cons]
          omega
  exact hlist d.entries

end Dict

end WhisperNet
