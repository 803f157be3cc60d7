import WhisperNet.Lib.HashChain
import WhisperNet.Python.Text
import WhisperNet.Python.Unicode

/-!
# Names

Names of the name service are texts with their labels separated by dots. A name is
known to the registry by its node, a chain of hashes over the labels. A name that
is minted goes there as the node of its parent and the hash of its first label,
which the registry hashes once more.

A text is trimmed, put into lower case and freed of its spaces before it is
normalised, and where the normaliser raises it is taken as it is. Normalising,
hashing and the checksum of an address are the work of other packages.

## Main definitions

* `removeSpaces`, `clean`: A text as the program reads it.
* `Packages`: What other packages do.
* `Packages.namehashBytes`, `Packages.labelhashBytes`: The hashes of a name and of
  a label.
* `Packages.encodeSetSubnodeRecordCalldata`: What is sent to mint a name.
* `Packages.labelsOf`: The labels that the hash of a name goes through.
* `Solid`, `LabelWise`: A normaliser that goes through the labels.
* `firstLabel`, `parentOf`: The label and the parent of a name that is minted.

## Theorems

* `trimmed_clean`, `settled_clean`: What is left is trimmed and in lower case.
* `clean_eq_self`: Such a text is read as it is.
* `namehashBytes_eq_ok`: The node is the chain of hashes of the labels.
* `calldata_eq_ok`: What was computed when there is something to send.
-/

namespace WhisperNet

open Unicode (lower isMark Trimmed)

/-- What separates the labels of a name. -/
def dot : CodePoint := 46

/-- `s.replace(" ", "")`. -/
def removeSpaces (s : PyStr) : PyStr := s.filter (fun c => c ≠ 32)

/-- `s.strip().lower().replace(" ", "")`. -/
def clean (s : PyStr) : PyStr := removeSpaces (lower (Unicode.strip s))

theorem removeSpaces_of_free {s : PyStr} (h : 32 ∉ s) : removeSpaces s = s := by
  refine List.filter_eq_self.mpr (fun c hc => decide_eq_true (fun heq => h ?_))
  rw [← heq]
  exact hc

theorem space_not_mem_removeSpaces (s : PyStr) : 32 ∉ removeSpaces s := by
  intro h
  exact of_decide_eq_true (List.mem_filter.mp h).2 rfl

/-- Spaces are whitespace, so taking them out leaves the ends of a trimmed text. -/
theorem trimmed_removeSpaces {s : PyStr} (h : Trimmed s) : Trimmed (removeSpaces s) := by
  have hspace : Unicode.isSpace 32 = true := by decide
  have hkeep : ∀ c, Unicode.isSpace c = false → decide (c ≠ 32) = true := by
    intro c hc
    refine decide_eq_true (fun heq => ?_)
    rw [heq, hspace] at hc
    exact Bool.false_ne_true hc.symm
  constructor
  · intro c hc
    cases s with
    | nil => exact h.head c hc
    | cons d s =>
        have hd := h.head d rfl
        rw [removeSpaces, List.filter_cons, if_pos (hkeep d hd), List.head?_cons] at hc
        rw [← Option.some.inj hc]
        exact hd
  · intro c hc
    -- The same from the other end.
    cases hlast : s.getLast? with
    | none =>
        rw [List.getLast?_eq_none_iff.mp hlast] at hc
        simp only [removeSpaces, List.filter_nil, List.getLast?_nil, reduceCtorEq] at hc
    | some d =>
        have hd := h.last d hlast
        rcases List.getLast?_eq_some_iff.mp hlast with ⟨pre, hpre⟩
        rw [removeSpaces, hpre, List.filter_append, List.filter_cons, if_pos (hkeep d hd),
          List.filter_nil, List.getLast?_concat] at hc
        rw [← Option.some.inj hc]
        exact hd

theorem trimmed_clean (s : PyStr) : Trimmed (clean s) :=
  trimmed_removeSpaces (Unicode.trimmed_lower (Unicode.trimmed_strip s))

theorem settled_clean (s : PyStr) : ∀ c ∈ clean s, Unicode.Settled c :=
  fun c hc => Unicode.settled_lower _ c (List.mem_filter.mp hc).1

theorem settled_dot : Unicode.Settled dot := ⟨by decide, by decide +kernel⟩

theorem space_not_mem_clean (s : PyStr) : 32 ∉ clean s := space_not_mem_removeSpaces _

/-- What is trimmed, in lower case and without spaces is read as it is. -/
theorem clean_eq_self {s : PyStr} (htrim : Trimmed s) (hsettled : ∀ c ∈ s, Unicode.Settled c)
    (hspace : 32 ∉ s) : clean s = s := by
  rw [clean, Unicode.strip_of_trimmed htrim, Unicode.lower_of_settled hsettled,
    removeSpaces_of_free hspace]

theorem mem_of_mem_strip {s : PyStr} {c : CodePoint} (h : c ∈ Unicode.strip s) : c ∈ s :=
  (List.dropWhile_sublist _).subset ((List.rdropWhile_prefix _ _).subset h)

/-- What is a separator or a dot in the text that is read comes from the text. -/
theorem mark_mem_clean {s : PyStr} {m : CodePoint} (hm : isMark m = true) (h : m ∈ clean s) :
    m ∈ s :=
  mem_of_mem_strip ((Unicode.mark_mem_lower hm).mp (List.mem_filter.mp h).1)

/-! ## Hashes -/

/-- The functions of other packages that names go through. -/
structure Packages where
  /-- `ens_normalize`, where it does not raise -/
  ensNormalize : PyStr → Option PyStr
  keccak : Bytes → Bytes
  /-- `to_checksum_address`, and what the encoder writes for that address -/
  address : PyStr → Except PyErr Bytes

/-- `".".join(parts)`. -/
def joinDots (parts : List PyStr) : PyStr := [dot].intercalate parts

def zeroNode : Bytes := List.replicate 32 0

/-- `ENS_PUBLIC_RESOLVER_SEPOLIA`. -/
def publicResolver : PyStr := lit "0xE99638b40E4Fff0129D56f03b55b6bbC4BBE49b5"

namespace Packages

variable (P : Packages)

/-- `_norm_name`. -/
def normName (name : PyStr) : PyStr := (P.ensNormalize (clean name)).getD (clean name)

/-- `keccak(text=s)`. -/
def keccakText (s : PyStr) : Except PyErr Bytes := (encode s).map P.keccak

/-- `namehash_bytes`. -/
def namehashBytes (name : PyStr) : Except PyErr Bytes :=
  if name = [] then .ok zeroNode
  else if P.normName name = [] then .ok zeroNode
  else ((P.normName name).splitOn dot).reverse.foldlM (fun node label => do
    let h ← P.keccakText label
    pure (P.keccak (node ++ h))) zeroNode

/-- `labelhash_bytes`. -/
def labelhashBytes (label : PyStr) : Except PyErr Bytes :=
  if dot ∈ P.normName label then .error .valueError else P.keccakText (P.normName label)

/-- `_SELECTOR`. -/
def selector : Bytes :=
  (P.keccak
    "setSubnodeRecord(bytes32,bytes32,address,address,uint64)".toUTF8.data.toList).take 4

/-- `encode_set_subnode_record_calldata`. -/
def encodeSetSubnodeRecordCalldata (fqdn owner : PyStr) (resolver : Option PyStr) :
    Except PyErr Bytes :=
  let parts := (lower (Unicode.strip fqdn)).splitOn dot
  if parts.length < 2 then .error .valueError
  else do
    let label := parts.headD []
    let parent := joinDots parts.tail
    let parentNode ← P.namehashBytes parent
    let labelH ← P.labelhashBytes label
    let resolverCs ← P.address
      (if resolver.getD [] = [] then publicResolver else resolver.getD [])
    let ownerCs ← P.address owner
    pure (P.selector ++ parentNode ++ labelH ++ ownerCs ++ resolverCs ++ List.replicate 32 0)

/-- The node that `read_owner` queries. -/
def queriedNode (fqdn : PyStr) : Except PyErr Bytes := P.namehashBytes fqdn

/-- The labels that `namehash_bytes` goes through. -/
def labelsOf (name : PyStr) : List PyStr :=
  if name = [] ∨ P.normName name = [] then [] else (P.normName name).splitOn dot

end Packages

/-- `label` in `encode_set_subnode_record_calldata`. -/
def firstLabel (fqdn : PyStr) : PyStr := ((lower (Unicode.strip fqdn)).splitOn dot).headD []

/-- `parent` in `encode_set_subnode_record_calldata`. -/
def parentOf (fqdn : PyStr) : PyStr := joinDots ((lower (Unicode.strip fqdn)).splitOn dot).tail

/-- Not empty, and without dots or whitespace. -/
structure Solid (s : PyStr) : Prop where
  nonempty : s ≠ []
  dotless : dot ∉ s
  inked : ∀ c ∈ s, Unicode.isSpace c = false

/-- The normaliser goes through the labels, and raises where `label` rejects one of
    them. What it accepts or returns for a label is solid. -/
structure LabelWise (ens label : PyStr → Option PyStr) : Prop where
  empty : ens [] = some []
  name : ∀ s, s ≠ [] → ens s = ((s.splitOn dot).mapM label).map joinDots
  accepted : ∀ x n, label x = some n → Solid x
  returned : ∀ x n, label x = some n → Solid n

/-- The bytes of a text that has no surrogates. -/
def utf8 (s : PyStr) : Bytes := (encode s).toOption.getD []

theorem encode_eq_utf8 {s : PyStr} {b : Bytes} (h : encode s = .ok b) : utf8 s = b := by
  rw [utf8, h]
  rfl

/-- Texts that can be encoded have bytes of their own. -/
theorem utf8_inj {s t : PyStr} (hs : encode s = .ok (utf8 s)) (ht : encode t = .ok (utf8 t))
    (h : utf8 s = utf8 t) : s = t := by
  have hback := decode_encode s _ hs
  rw [h, decode_encode t _ ht] at hback
  exact (Except.ok.inj hback).symm

theorem map_utf8_inj {xs ys : List PyStr} (hxs : ∀ x ∈ xs, encode x = .ok (utf8 x))
    (hys : ∀ y ∈ ys, encode y = .ok (utf8 y)) (h : xs.map utf8 = ys.map utf8) : xs = ys := by
  induction xs generalizing ys with
  | nil => exact (List.map_eq_nil_iff.mp h.symm).symm
  | cons x xs ih =>
      cases ys with
      | nil => exact absurd h (List.cons_ne_nil _ _)
      | cons y ys =>
          rw [List.forall_mem_cons] at hxs hys
          rw [List.map_cons, List.map_cons, List.cons.injEq] at h
          rw [utf8_inj hxs.1 hys.1 h.1, ih hxs.2 hys.2 h.2]

section Hashes

variable {P : Packages}

theorem keccakText_eq_ok {s : PyStr} {b : Bytes} :
    P.keccakText s = .ok b ↔ encode s = .ok (utf8 s) ∧ b = P.keccak (utf8 s) := by
  unfold Packages.keccakText
  cases hs : encode s with
  | error e => simp only [Except.map, reduceCtorEq, false_and]
  | ok b' =>
      rw [encode_eq_utf8 hs]
      simp only [Except.map, Except.ok.injEq, true_and, eq_comm]

/-- The loop over the labels computes the chain of their hashes, if it can encode
    them all. -/
theorem labels_foldlM {labels : List PyStr} {node : Bytes} :
    labels.reverse.foldlM (fun node label => do
        let h ← P.keccakText label
        pure (P.keccak (node ++ h))) zeroNode = Except.ok (ε := PyErr) node ↔
      (∀ l ∈ labels, encode l = .ok (utf8 l)) ∧
        node = hashChain P.keccak zeroNode (labels.map utf8) := by
  -- The loop takes the last label first, so the induction ends with the first one.
  rw [List.foldlM_reverse]
  induction labels generalizing node with
  | nil =>
      simp only [List.foldrM_nil, List.not_mem_nil, false_implies, implies_true, true_and,
        List.map_nil, hashChain, pure, Except.pure, Except.ok.injEq, eq_comm]
  | cons l labels ih =>
      rw [List.foldrM_cons, List.forall_mem_cons, List.map_cons, hashChain]
      constructor
      · intro h
        rcases bind_eq_ok.mp h with ⟨rest, hrest, h⟩
        rcases bind_eq_ok.mp h with ⟨digest, hdigest, h⟩
        rcases ih.mp hrest with ⟨hall, hnode⟩
        rcases keccakText_eq_ok.mp hdigest with ⟨hl, hd⟩
        refine ⟨⟨hl, hall⟩, ?_⟩
        rw [← Except.ok.inj h, hnode, hd]
      · rintro ⟨⟨hl, hall⟩, hnode⟩
        rw [ih.mpr ⟨hall, rfl⟩, hnode]
        change P.keccakText l >>= _ = _
        rw [keccakText_eq_ok.mpr ⟨hl, rfl⟩]
        rfl

/-- The node of a name is the chain of the hashes of its labels. -/
theorem namehashBytes_eq_ok {name : PyStr} {node : Bytes} :
    P.namehashBytes name = .ok node ↔
      (∀ l ∈ P.labelsOf name, encode l = .ok (utf8 l)) ∧
        node = hashChain P.keccak zeroNode ((P.labelsOf name).map utf8) := by
  have hzero : (Except.ok zeroNode : Except PyErr Bytes) = .ok node ↔
      (∀ l ∈ ([] : List PyStr), encode l = .ok (utf8 l)) ∧
        node = hashChain P.keccak zeroNode (([] : List PyStr).map utf8) := by
    simp only [List.not_mem_nil, false_implies, implies_true, true_and, List.map_nil, hashChain,
      Except.ok.injEq, eq_comm]
  unfold Packages.namehashBytes Packages.labelsOf
  by_cases hname : name = []
  · rw [if_pos hname, if_pos (Or.inl hname)]
    exact hzero
  · by_cases hnorm : P.normName name = []
    · rw [if_neg hname, if_pos hnorm, if_pos (Or.inr hnorm)]
      exact hzero
    · rw [if_neg hname, if_neg hnorm, if_neg (not_or_intro hname hnorm)]
      exact labels_foldlM

theorem of_labelhashBytes_eq_ok {label : PyStr} {h : Bytes} (hok : P.labelhashBytes label = .ok h) :
    encode (P.normName label) = .ok (utf8 (P.normName label)) ∧
      h = P.keccak (utf8 (P.normName label)) := by
  unfold Packages.labelhashBytes at hok
  split at hok
  · simp only [reduceCtorEq] at hok
  · exact keccakText_eq_ok.mp hok

/-- There is something to send only if there are two parts, and it has the node of
    the parent and the hash of the label after the selector. -/
theorem calldata_eq_ok {fqdn owner : PyStr} {resolver : Option PyStr} {data : Bytes}
    (h : P.encodeSetSubnodeRecordCalldata fqdn owner resolver = .ok data) :
    2 ≤ ((lower (Unicode.strip fqdn)).splitOn dot).length ∧
      ∃ parentNode labelH rest, P.namehashBytes (parentOf fqdn) = .ok parentNode ∧
        P.labelhashBytes (firstLabel fqdn) = .ok labelH ∧
        data = P.selector ++ (parentNode ++ (labelH ++ rest)) := by
  unfold Packages.encodeSetSubnodeRecordCalldata at h
  dsimp only at h
  split at h
  · simp only [reduceCtorEq] at h
  · rename_i hlength
    rcases bind_eq_ok.mp h with ⟨parentNode, hparent, h⟩
    rcases bind_eq_ok.mp h with ⟨labelH, hlabel, h⟩
    rcases bind_eq_ok.mp h with ⟨resolverCs, _, h⟩
    rcases bind_eq_ok.mp h with ⟨ownerCs, _, h⟩
    refine ⟨not_lt.mp hlength, parentNode, labelH,
      ownerCs ++ (resolverCs ++ List.replicate 32 0), hparent, hlabel, ?_⟩
    rw [← Except.ok.inj h]
    simp only [List.append_assoc]

end Hashes

end WhisperNet
