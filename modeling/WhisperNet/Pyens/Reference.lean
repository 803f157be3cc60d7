import WhisperNet.Lib.Keccak
import WhisperNet.Pyens.Names
import WhisperNet.Python.Json

/-!
# The Packages on Plain Names

The hash is Keccak-256. The normaliser is the one for labels of small letters and
digits, which are their own normal forms, and raises on all others; there it only
stands in for the real one. An address is read as forty hexadecimal digits and
padded to a word.

## Main definitions

* `Ascii.ensNormalize`: The normaliser.
* `Ascii.address`: The encoder of addresses.
* `Ascii.packages`: The packages.

## Theorems

* `Ascii.labelWise`: The normaliser goes through the labels.
-/

namespace WhisperNet

namespace Ascii

def isAlphanumeric (c : CodePoint) : Bool :=
  (48 ≤ c.val && c.val ≤ 57) || (97 ≤ c.val && c.val ≤ 122)

def normalizeLabel (label : PyStr) : Option PyStr :=
  if label ≠ [] ∧ label.all isAlphanumeric then some label else none

def ensNormalize (s : PyStr) : Option PyStr :=
  if s = [] then some [] else ((s.splitOn dot).mapM normalizeLabel).map joinDots

/-- The bytes of hexadecimal digits, in pairs. -/
def ofHex : PyStr → Option Bytes
  | [] => some []
  | [_] => none
  | c :: d :: s => do
    let high ← Json.hexValue? c
    let low ← Json.hexValue? d
    let rest ← ofHex s
    pure (UInt8.ofNat (16 * high + low) :: rest)

def address (s : PyStr) : Except PyErr Bytes :=
  if s.length = 42 ∧ s.take 2 = lit "0x" then
    ((ofHex (s.drop 2)).map (fun b => .ok (List.replicate 12 0 ++ b))).getD (.error .valueError)
  else .error .valueError

def packages : Packages := ⟨ensNormalize, keccak256, address⟩

theorem not_space_of_isAlphanumeric {c : CodePoint} (h : isAlphanumeric c = true) :
    Unicode.isSpace c = false := by
  simp only [isAlphanumeric, Bool.or_eq_true, Bool.and_eq_true, decide_eq_true_eq] at h
  simp only [Unicode.isSpace, Unicode.within, Unicode.spaceRanges, List.any_cons, List.any_nil,
    Bool.or_false, Bool.or_eq_false_iff, Bool.and_eq_false_iff, decide_eq_false_iff_not]
  omega

theorem solid_of_normalizeLabel {label n : PyStr} (h : normalizeLabel label = some n) :
    Solid label ∧ n = label := by
  unfold normalizeLabel at h
  split at h
  · rename_i hlabel
    have hall := List.all_eq_true.mp hlabel.2
    refine ⟨⟨hlabel.1, fun hdot => ?_, fun c hc => ?_⟩, (Option.some.inj h).symm⟩
    · exact absurd (hall dot hdot) (by decide)
    · exact not_space_of_isAlphanumeric (hall c hc)
  · simp only [reduceCtorEq] at h

/-- The normaliser goes through the labels. -/
theorem labelWise : LabelWise packages.ensNormalize normalizeLabel where
  empty := rfl
  name := fun s hs => if_neg hs
  accepted := fun _ _ h => (solid_of_normalizeLabel h).1
  returned := by
    intro x n h
    rcases solid_of_normalizeLabel h with ⟨hsolid, hsame⟩
    rw [hsame]
    exact hsolid

end Ascii

end WhisperNet
