import WhisperNet.Lib.Pieces
import WhisperNet.Pyens.Names

/-!
# Lists of Child Labels

The labels to mint are given as a text, one per line or separated by commas, each
with or without the name of the parent. The parser trims each piece, puts it into
lower case and takes the spaces out, then takes the suffix off, and drops what
still has a dot.

The suffix is taken off last, so whatever stands before it is at the end of the
label. Spaces are gone by then, but other whitespace inside a piece is not, and a
label that ends in a tab is minted with it. `normalForm_iff` says that a list is
in normal form unless that happens, or the name of the parent itself has a
separator in it, which no piece can end with.

## Main definitions

* `parseChildLabels`: The parser.
* `NormalForm`: Clean labels, which are parsed back as they are.
* `plainLabels`: The labels that stand in a text without a suffix.
* `Tidy`: No label is followed by whitespace and the suffix.

## Theorems

* `parseChildLabels_eq`: The labels of the pieces, without repetitions.
* `labelOf_bare`, `labelOf_suffixed`: A trimmed label is parsed back.
* `normalForm_iff_of_free`: For a parent without separators.
* `normalForm_iff_of_split`: For a parent with one.
* `normalForm_iff`: The exact condition.
-/

namespace WhisperNet

open Unicode (lower isMark Trimmed)

/-- What `[\n,]` matches. -/
def isSeparator (c : CodePoint) : Bool := c = 10 || c = 44

/-- `f".{parent_fqdn.strip().lower()}"`. -/
def suffixOf (parent : PyStr) : PyStr := dot :: lower (Unicode.strip parent)

/-- What one segment adds to the labels in `_parse_child_labels`. The set of the labels
    seen has the members of the list. -/
def addSegment (suffix : PyStr) (out : List PyStr) (seg : PyStr) : List PyStr :=
  let s := clean seg
  if s = [] then out
  else
    let s := if suffix <:+ s then s.take (s.length - suffix.length) else s
    if s = [] ∨ dot ∈ s then out else addNew out s

/-- `_parse_child_labels`. -/
def parseChildLabels (raw parent : PyStr) : List PyStr :=
  (splitRuns isSeparator raw).foldl (addSegment (suffixOf parent)) []

/-- `",".join(labels)`. -/
def joinCommas (labels : List PyStr) : PyStr := [44].intercalate labels

/-- The labels are clean and distinct, and parsed back as they are, by themselves
    and with the suffix. -/
structure NormalForm (raw parent : PyStr) : Prop where
  labels : ∀ l ∈ parseChildLabels raw parent, l ≠ [] ∧ dot ∉ l ∧ Unicode.strip l = l
  distinct : (parseChildLabels raw parent).Nodup
  bare : parseChildLabels (joinCommas (parseChildLabels raw parent)) parent =
    parseChildLabels raw parent
  suffixed : parseChildLabels
      (joinCommas ((parseChildLabels raw parent).map (· ++ suffixOf parent))) parent =
    parseChildLabels raw parent

/-- The segments that are labels as they stand, cleaned. -/
def plainLabels (text : PyStr) : List PyStr :=
  ((splitRuns isSeparator text).map clean).filter (fun s => s ≠ [] ∧ dot ∉ s)

/-- No segment is a label followed by whitespace and the suffix. -/
def Tidy (raw suffix : PyStr) : Prop :=
  ∀ seg ∈ splitRuns isSeparator raw, ∀ x c, Unicode.isSpace c = true →
    clean seg = x ++ c :: suffix → dot ∈ x

/-- The suffix from its first separator on. -/
def suffixTail (suffix : PyStr) : PyStr := suffix.dropWhile (fun c => !isSeparator c)

/-! ## One segment -/

/-- The label in a segment, if there is one. -/
def labelOf (suffix seg : PyStr) : Option PyStr :=
  let s := clean seg
  let s := if suffix <:+ s then s.take (s.length - suffix.length) else s
  if s = [] ∨ dot ∈ s then none else some s

theorem labelOf_nil (suffix : PyStr) : labelOf suffix [] = none := by
  have hempty : (if suffix <:+ ([] : PyStr) then ([] : PyStr).take (0 - suffix.length) else []) =
      [] := by
    split
    · exact List.take_nil
    · rfl
  have hclean : clean [] = [] := rfl
  simp only [labelOf, hclean, List.length_nil, hempty, true_or, if_true]

theorem addSegment_eq (suffix : PyStr) (out : List PyStr) (seg : PyStr) :
    addSegment suffix out seg = ((labelOf suffix seg).map (addNew out)).getD out := by
  by_cases hempty : clean seg = []
  · have hnone : labelOf suffix seg = none := by
      have hsame : labelOf suffix seg = labelOf suffix [] := by
        unfold labelOf
        rw [hempty]
        rfl
      rw [hsame, labelOf_nil]
    rw [hnone, addSegment, if_pos hempty]
    rfl
  · unfold addSegment labelOf
    dsimp only
    rw [if_neg hempty]
    generalize (if suffix <:+ clean seg then _ else clean seg) = s
    by_cases hskip : s = [] ∨ dot ∈ s
    · rw [if_pos hskip, if_pos hskip]
      rfl
    · rw [if_neg hskip, if_neg hskip]
      rfl

/-- The parser keeps the labels of the pieces, without repetitions. -/
theorem parseChildLabels_eq (raw parent : PyStr) :
    parseChildLabels raw parent =
      distinct ((pieces isSeparator raw).filterMap (labelOf (suffixOf parent))) := by
  have hfold : ∀ (segs out : List PyStr), segs.foldl (addSegment (suffixOf parent)) out =
      (segs.filterMap (labelOf (suffixOf parent))).foldl addNew out := by
    intro segs
    induction segs with
    | nil => exact fun _ => rfl
    | cons seg segs ih =>
        intro out
        rw [List.foldl_cons, addSegment_eq, List.filterMap_cons, ih]
        cases labelOf (suffixOf parent) seg with
        | none => rfl
        | some l => rfl
  rw [filterMap_pieces (labelOf_nil _)]
  exact hfold _ []

theorem mem_parseChildLabels {raw parent l : PyStr} :
    l ∈ parseChildLabels raw parent ↔
      ∃ seg ∈ pieces isSeparator raw, labelOf (suffixOf parent) seg = some l := by
  rw [parseChildLabels_eq, mem_distinct, List.mem_filterMap]

/-- A label is what a segment has before the suffix, or the whole of it. -/
theorem labelOf_eq_some {suffix seg l : PyStr} (h : labelOf suffix seg = some l) :
    l ≠ [] ∧ dot ∉ l ∧ (clean seg = l ∨ clean seg = l ++ suffix) := by
  unfold labelOf at h
  dsimp only at h
  by_cases hsuffix : suffix <:+ clean seg
  · rw [if_pos hsuffix] at h
    rcases hsuffix with ⟨pre, hpre⟩
    have htake : (clean seg).take ((clean seg).length - suffix.length) = pre := by
      rw [← hpre, List.length_append, Nat.add_sub_cancel, List.take_left']
      rfl
    rw [htake] at h
    split at h
    · simp only [reduceCtorEq] at h
    · rename_i hkeep
      rw [← Option.some.inj h]
      exact ⟨fun hc => hkeep (Or.inl hc), fun hc => hkeep (Or.inr hc), Or.inr hpre.symm⟩
  · rw [if_neg hsuffix] at h
    split at h
    · simp only [reduceCtorEq] at h
    · rename_i hkeep
      rw [← Option.some.inj h]
      exact ⟨fun hc => hkeep (Or.inl hc), fun hc => hkeep (Or.inr hc), Or.inl rfl⟩

/-- A clean label followed by the suffix is that label. -/
theorem labelOf_suffixed {suffix seg l : PyStr} (hclean : clean seg = l ++ suffix) (hne : l ≠ [])
    (hdot : dot ∉ l) : labelOf suffix seg = some l := by
  have htake : (l ++ suffix).take ((l ++ suffix).length - suffix.length) = l := by
    rw [List.length_append, Nat.add_sub_cancel, List.take_left']
    rfl
  unfold labelOf
  dsimp only
  rw [hclean, if_pos (List.suffix_append l suffix), htake, if_neg (not_or_intro hne hdot)]

/-- A clean segment that does not end in the suffix is a label if it has no dot. -/
theorem labelOf_bare {suffix seg : PyStr} (hsuffix : ¬ suffix <:+ clean seg)
    (hne : clean seg ≠ []) (hdot : dot ∉ clean seg) : labelOf suffix seg = some (clean seg) := by
  unfold labelOf
  dsimp only
  rw [if_neg hsuffix, if_neg (not_or_intro hne hdot)]

/-- Nothing without a dot ends in a suffix. -/
theorem not_suffix_of_dot {parent s : PyStr} (h : dot ∉ s) : ¬ suffixOf parent <:+ s :=
  fun hc => h (hc.subset (List.mem_cons_self ..))

/-! ## Labels -/

/-- What holds of every label that is parsed. -/
structure IsLabel (l : PyStr) : Prop where
  nonempty : l ≠ []
  dotless : dot ∉ l
  settled : ∀ c ∈ l, Unicode.Settled c
  spaceless : 32 ∉ l
  free : ∀ c ∈ l, isSeparator c = false
  head : ∀ c, l.head? = some c → Unicode.isSpace c = false

theorem mark_of_isSeparator {c : CodePoint} (h : isSeparator c = true) : isMark c = true := by
  unfold isSeparator at h
  rw [Bool.or_eq_true, decide_eq_true_eq, decide_eq_true_eq] at h
  rcases h with h | h
  · rw [h]
    decide
  · rw [h]
    decide

theorem free_of_mem_pieces {text seg : PyStr} (h : seg ∈ pieces isSeparator text) :
    ∀ c ∈ seg, isSeparator c = false :=
  free_of_mem_splitRuns (List.mem_filter.mp h).1

/-- A clean segment has no separators. -/
theorem free_clean {seg : PyStr} (h : ∀ c ∈ seg, isSeparator c = false) :
    ∀ c ∈ clean seg, isSeparator c = false := by
  intro c hc
  by_contra hsep
  rw [Bool.not_eq_false] at hsep
  have hold := h c (mark_mem_clean (mark_of_isSeparator hsep) hc)
  rw [hsep] at hold
  exact Bool.false_ne_true hold.symm

theorem isLabel_of_labelOf {suffix seg l : PyStr} (hfree : ∀ c ∈ seg, isSeparator c = false)
    (h : labelOf suffix seg = some l) : IsLabel l := by
  rcases labelOf_eq_some h with ⟨hne, hdot, hclean⟩
  -- The label is the beginning of the clean segment.
  obtain ⟨post, hpost⟩ : ∃ post, clean seg = l ++ post := by
    rcases hclean with heq | heq
    · exact ⟨[], by rw [heq, List.append_nil]⟩
    · exact ⟨suffix, heq⟩
  have hsub : ∀ c ∈ l, c ∈ clean seg := by
    intro c hc
    rw [hpost]
    exact List.mem_append_left _ hc
  exact
    { nonempty := hne
      dotless := hdot
      settled := fun c hc => settled_clean seg c (hsub c hc)
      spaceless := fun hc => space_not_mem_clean seg (hsub 32 hc)
      free := fun c hc => free_clean hfree c (hsub c hc)
      head := fun c hc => (trimmed_clean seg).head c (by
        rw [hpost, List.head?_append_of_ne_nil _ hne]
        exact hc) }

theorem isLabel_of_mem {raw parent l : PyStr} (h : l ∈ parseChildLabels raw parent) :
    IsLabel l := by
  rcases mem_parseChildLabels.mp h with ⟨seg, hseg, hl⟩
  exact isLabel_of_labelOf (free_of_mem_pieces hseg) hl

theorem trimmed_of_strip_eq {s : PyStr} (h : Unicode.strip s = s) : Trimmed s := by
  rw [← h]
  exact Unicode.trimmed_strip s

/-- The labels of a joined list are those of its members, if none is empty and none
    has a separator. -/
theorem parse_joinCommas (parent : PyStr) {xs : List PyStr}
    (h : ∀ x ∈ xs, x ≠ [] ∧ ∀ c ∈ x, isSeparator c = false) :
    parseChildLabels (joinCommas xs) parent =
      distinct (xs.filterMap (labelOf (suffixOf parent))) := by
  have hpieces : pieces isSeparator (joinCommas xs) = xs := by
    rw [joinCommas, pieces_join rfl]
    induction xs with
    | nil => rfl
    | cons x xs ih =>
        rw [List.forall_mem_cons] at h
        rw [List.flatMap_cons, pieces_of_free h.1.1 h.1.2, ih h.2, List.singleton_append]
  rw [parseChildLabels_eq, hpieces]

/-- A trimmed label is read as it is. -/
theorem clean_label {l : PyStr} (h : IsLabel l) (htrim : Trimmed l) : clean l = l :=
  clean_eq_self htrim h.settled h.spaceless

/-- Trimmed labels that are joined are parsed back. -/
theorem parse_bare {parent : PyStr} {out : List PyStr} (hout : ∀ l ∈ out, IsLabel l)
    (htrim : ∀ l ∈ out, Trimmed l) (hnodup : out.Nodup) :
    parseChildLabels (joinCommas out) parent = out := by
  rw [parse_joinCommas parent (fun l hl => ⟨(hout l hl).nonempty, (hout l hl).free⟩)]
  have hmap : out.filterMap (labelOf (suffixOf parent)) = out := by
    refine (List.filterMap_congr (g := some) (fun l hl => ?_)).trans List.filterMap_some
    have hclean := clean_label (hout l hl) (htrim l hl)
    have hdot : dot ∉ clean l := by
      rw [hclean]
      exact (hout l hl).dotless
    rw [labelOf_bare (not_suffix_of_dot hdot) (by rw [hclean]; exact (hout l hl).nonempty) hdot,
      hclean]
  rw [hmap, distinct_of_nodup hnodup]

/-! ## A parent without separators -/

section Suffix

variable {raw parent : PyStr}

theorem settled_suffix (parent : PyStr) : ∀ c ∈ suffixOf parent, Unicode.Settled c :=
  List.forall_mem_cons.mpr ⟨settled_dot, Unicode.settled_lower _⟩

theorem space_not_mem_suffix (hspace : 32 ∉ parent) : 32 ∉ suffixOf parent := by
  rw [suffixOf, List.mem_cons]
  rintro (h | h)
  · exact absurd h (by decide)
  · exact hspace (mem_of_mem_strip ((Unicode.mark_mem_lower (by decide)).mp h))

theorem last_suffix (parent : PyStr) (c : CodePoint) (h : (suffixOf parent).getLast? = some c) :
    Unicode.isSpace c = false := by
  cases hlower : lower (Unicode.strip parent) with
  | nil =>
      rw [suffixOf, hlower, List.getLast?_singleton, Option.some.injEq] at h
      rw [← h]
      decide
  | cons d s =>
      rw [suffixOf, hlower, List.getLast?_cons_cons] at h
      refine (Unicode.trimmed_lower (Unicode.trimmed_strip parent)).last c ?_
      rw [hlower]
      exact h

/-- A label with the suffix is read as it is, whatever the label ends in. -/
theorem clean_suffixed {l : PyStr} (hspace : 32 ∉ parent) (h : IsLabel l) :
    clean (l ++ suffixOf parent) = l ++ suffixOf parent := by
  refine clean_eq_self ⟨fun c hc => ?_, fun c hc => ?_⟩ (fun c hc => ?_) (fun hc => ?_)
  · rw [List.head?_append_of_ne_nil _ h.nonempty] at hc
    exact h.head c hc
  · have hne : suffixOf parent ≠ [] := List.cons_ne_nil _ _
    rw [List.getLast?_append_of_ne_nil _ hne] at hc
    exact last_suffix parent c hc
  · rcases List.mem_append.mp hc with hl | hs
    · exact h.settled c hl
    · exact settled_suffix parent c hs
  · rcases List.mem_append.mp hc with hl | hs
    · exact h.spaceless hl
    · exact space_not_mem_suffix hspace hs

/-- Labels joined with their suffixes are parsed back. -/
theorem parse_suffixed {out : List PyStr} (hspace : 32 ∉ parent)
    (hfree : ∀ c ∈ suffixOf parent, isSeparator c = false) (hout : ∀ l ∈ out, IsLabel l)
    (hnodup : out.Nodup) :
    parseChildLabels (joinCommas (out.map (· ++ suffixOf parent))) parent = out := by
  have hparts : ∀ x ∈ out.map (· ++ suffixOf parent),
      x ≠ [] ∧ ∀ c ∈ x, isSeparator c = false := by
    intro x hx
    rcases List.mem_map.mp hx with ⟨l, hl, hlx⟩
    rw [← hlx]
    refine ⟨List.append_ne_nil_of_left_ne_nil (hout l hl).nonempty _, fun c hc => ?_⟩
    rcases List.mem_append.mp hc with hcl | hcs
    · exact (hout l hl).free c hcl
    · exact hfree c hcs
  rw [parse_joinCommas parent hparts, List.filterMap_map]
  have hmap : out.filterMap (labelOf (suffixOf parent) ∘ (· ++ suffixOf parent)) = out := by
    refine (List.filterMap_congr (g := some) (fun l hl => ?_)).trans List.filterMap_some
    have hlabel := hout l hl
    exact labelOf_suffixed (clean_suffixed hspace hlabel) hlabel.nonempty hlabel.dotless
  rw [hmap, distinct_of_nodup hnodup]

/-- A tidy list has trimmed labels only. -/
theorem trimmed_of_tidy (htidy : Tidy raw (suffixOf parent)) {l : PyStr}
    (hl : l ∈ parseChildLabels raw parent) : Trimmed l := by
  refine ⟨(isLabel_of_mem hl).head, fun c hc => ?_⟩
  rcases mem_parseChildLabels.mp hl with ⟨seg, hseg, hlabel⟩
  rcases labelOf_eq_some hlabel with ⟨_, hdot, hclean | hclean⟩
  · rw [← hclean] at hc
    exact (trimmed_clean seg).last c hc
  · -- The last character of the label stands before the suffix.
    by_contra hspace
    rw [Bool.not_eq_false] at hspace
    rcases List.getLast?_eq_some_iff.mp hc with ⟨x, hx⟩
    rw [hx, List.append_assoc, List.singleton_append] at hclean
    have hmem := htidy seg (List.mem_filter.mp hseg).1 x c hspace hclean
    exact hdot (hx ▸ List.mem_append_left _ hmem)

/-- A label that is followed by whitespace and the suffix is kept with the
    whitespace. -/
theorem tidy_of_trimmed (h : ∀ l ∈ parseChildLabels raw parent, Trimmed l) :
    Tidy raw (suffixOf parent) := by
  intro seg hseg x c hspace hclean
  by_contra hdot
  have hne : seg ≠ [] := by
    intro hnil
    rw [hnil] at hclean
    exact absurd hclean.symm (List.append_ne_nil_of_right_ne_nil _ (List.cons_ne_nil _ _))
  -- Without a dot before it, the whitespace is the end of a label.
  have hlabel : labelOf (suffixOf parent) seg = some (x ++ [c]) := by
    refine labelOf_suffixed ?_ (List.append_ne_nil_of_right_ne_nil _ (List.cons_ne_nil _ _)) ?_
    · rw [hclean, List.append_assoc, List.singleton_append]
    · rw [List.mem_append, List.mem_singleton]
      rintro (hx | hc)
      · exact hdot hx
      · rw [← hc] at hspace
        exact absurd hspace (by decide)
  have hpiece : seg ∈ pieces isSeparator raw := by
    refine List.mem_filter.mpr ⟨hseg, ?_⟩
    rw [Bool.not_eq_true', List.isEmpty_eq_false_iff]
    exact hne
  have hlast := (h _ (mem_parseChildLabels.mpr ⟨seg, hpiece, hlabel⟩)).last c List.getLast?_concat
  rw [hspace] at hlast
  exact Bool.false_ne_true hlast.symm

theorem nodup_parseChildLabels (raw parent : PyStr) : (parseChildLabels raw parent).Nodup := by
  rw [parseChildLabels_eq]
  exact nodup_distinct _

/-- For a parent without separators, exactly the tidy lists are in normal form. -/
theorem normalForm_iff_of_free (hspace : 32 ∉ parent)
    (hfree : ∀ c ∈ suffixOf parent, isSeparator c = false) :
    NormalForm raw parent ↔ Tidy raw (suffixOf parent) := by
  constructor
  · intro h
    exact tidy_of_trimmed (fun l hl => trimmed_of_strip_eq (h.labels l hl).2.2)
  · intro htidy
    have htrim : ∀ l ∈ parseChildLabels raw parent, Trimmed l := fun l => trimmed_of_tidy htidy
    have hlabels : ∀ l ∈ parseChildLabels raw parent, IsLabel l := fun l => isLabel_of_mem
    exact
      { labels := fun l hl => ⟨(hlabels l hl).nonempty, (hlabels l hl).dotless,
          Unicode.strip_of_trimmed (htrim l hl)⟩
        distinct := nodup_parseChildLabels raw parent
        bare := parse_bare hlabels htrim (nodup_parseChildLabels raw parent)
        suffixed := parse_suffixed hspace hfree hlabels (nodup_parseChildLabels raw parent) }

end Suffix

/-! ## A parent with a separator -/

section Split

variable {raw parent : PyStr}

/-- No segment ends in a suffix with a separator. -/
theorem not_suffix_of_split (hsplit : ∃ c ∈ suffixOf parent, isSeparator c = true) {seg : PyStr}
    (hfree : ∀ c ∈ seg, isSeparator c = false) : ¬ suffixOf parent <:+ clean seg := by
  rcases hsplit with ⟨c, hc, hsep⟩
  intro hsuffix
  have hno := free_clean hfree c (hsuffix.subset hc)
  rw [hsep] at hno
  exact Bool.false_ne_true hno.symm

/-- Then the labels are those that stand in the text as they are. -/
theorem filterMap_labelOf_of_split (hsplit : ∃ c ∈ suffixOf parent, isSeparator c = true)
    (text : PyStr) :
    (pieces isSeparator text).filterMap (labelOf (suffixOf parent)) = plainLabels text := by
  have hone : ∀ segs : List PyStr, (∀ seg ∈ segs, ∀ c ∈ seg, isSeparator c = false) →
      segs.filterMap (labelOf (suffixOf parent)) =
        (segs.map clean).filter (fun s => s ≠ [] ∧ dot ∉ s) := by
    intro segs
    induction segs with
    | nil => exact fun _ => rfl
    | cons seg segs ih =>
        intro hfree
        rw [List.forall_mem_cons] at hfree
        -- A suffix with a separator is the end of no segment.
        have hno := not_suffix_of_split hsplit hfree.1
        rw [List.filterMap_cons, List.map_cons, List.filter_cons, ih hfree.2]
        by_cases hkeep : clean seg ≠ [] ∧ dot ∉ clean seg
        · rw [labelOf_bare hno hkeep.1 hkeep.2, if_pos (decide_eq_true hkeep)]
        · have hnone : labelOf (suffixOf parent) seg = none := by
            have hskip : clean seg = [] ∨ dot ∈ clean seg := by
              by_contra hc
              rw [not_or] at hc
              exact hkeep hc
            unfold labelOf
            dsimp only
            rw [if_neg hno, if_pos hskip]
          rw [hnone, if_neg (fun hc => hkeep (of_decide_eq_true hc))]
  rw [filterMap_pieces (labelOf_nil _)]
  exact hone _ (fun seg hseg => free_of_mem_splitRuns hseg)

theorem plainLabels_eq (text : PyStr) :
    plainLabels text =
      ((pieces isSeparator text).map clean).filter (fun s => s ≠ [] ∧ dot ∉ s) := by
  have hmap : ∀ segs : List PyStr, (segs.map clean).filter (fun s => s ≠ [] ∧ dot ∉ s) =
      segs.filterMap (fun seg => (some (clean seg)).filter (fun s => s ≠ [] ∧ dot ∉ s)) := by
    intro segs
    rw [List.filter_map, ← List.filterMap_eq_map, List.filterMap_filter]
    refine List.filterMap_congr (fun seg _ => ?_)
    simp only [Function.comp, Option.filter_some]
  rw [plainLabels, hmap, hmap, filterMap_pieces]
  rfl

/-- A separator divides the labels. -/
theorem plainLabels_append_cons (s t : PyStr) {c : CodePoint} (hc : isSeparator c = true) :
    plainLabels (s ++ c :: t) = plainLabels s ++ plainLabels t := by
  simp only [plainLabels_eq]
  rw [pieces_append_cons s t hc, List.map_append, List.filter_append]

theorem plainLabels_join (xs : List PyStr) :
    plainLabels (joinCommas xs) = xs.flatMap plainLabels := by
  rw [plainLabels_eq, joinCommas, pieces_join rfl, List.map_flatMap, List.filter_flatMap]
  exact List.flatMap_congr (fun x _ => (plainLabels_eq x).symm)

theorem mem_strip_of_mem {s : PyStr} {c : CodePoint} (hc : Unicode.isSpace c = false) (h : c ∈ s) :
    c ∈ Unicode.strip s := by
  have hnot : ¬ Unicode.isSpace c = true := Bool.eq_false_iff.mp hc
  have hdrop : c ∈ s.dropWhile Unicode.isSpace := by
    rw [← @List.takeWhile_append_dropWhile _ Unicode.isSpace s, List.mem_append] at h
    exact h.resolve_left (fun hmem => hnot (List.mem_takeWhile_imp hmem))
  rw [← @List.rdropWhile_append_rtakeWhile _ Unicode.isSpace (s.dropWhile Unicode.isSpace),
    List.mem_append] at hdrop
  exact hdrop.resolve_right (fun hmem => hnot (List.mem_rtakeWhile_imp hmem))

/-- What has a dot and no separator is no label. -/
theorem plainLabels_of_dot {s : PyStr} (hdot : dot ∈ s) (hfree : ∀ c ∈ s, isSeparator c = false) :
    plainLabels s = [] := by
  have hclean : dot ∈ clean s := by
    refine List.mem_filter.mpr ⟨?_, by decide⟩
    exact (Unicode.mark_mem_lower (by decide)).mpr (mem_strip_of_mem (by decide) hdot)
  rw [plainLabels_eq, pieces_of_free (List.ne_nil_of_mem hdot) hfree, List.map_singleton,
    List.filter_cons_of_neg]
  · rfl
  · simp only [hclean, not_true_eq_false, and_false, decide_false, Bool.false_eq_true,
      not_false_eq_true]

/-- With the suffix appended, only what stands after its first separator is a label. -/
theorem plainLabels_suffixed (hsplit : ∃ c ∈ suffixOf parent, isSeparator c = true) {l : PyStr}
    (hl : ∀ c ∈ l, isSeparator c = false) :
    plainLabels (l ++ suffixOf parent) = plainLabels (suffixTail (suffixOf parent)) := by
  have hparts := @List.takeWhile_append_dropWhile _ (fun c => !isSeparator c) (suffixOf parent)
  have hhead : ∀ c ∈ (suffixOf parent).takeWhile (fun c => !isSeparator c),
      isSeparator c = false := by
    intro c hc
    have hnot := List.mem_takeWhile_imp hc
    rw [Bool.not_eq_true'] at hnot
    exact hnot
  cases htail : (suffixOf parent).dropWhile (fun c => !isSeparator c) with
  | nil =>
      -- The suffix does have a separator.
      rcases hsplit with ⟨c, hc, hsep⟩
      have hno := List.dropWhile_eq_nil_iff.mp htail c hc
      rw [hsep] at hno
      exact absurd hno Bool.false_ne_true
  | cons c t =>
      have hc : isSeparator c = true := by
        have hnot := List.head?_dropWhile_not (fun c => !isSeparator c) (suffixOf parent)
        rw [htail] at hnot
        simpa only [List.head?_cons, Bool.not_eq_false'] using hnot
      have hdot : dot ∈ (suffixOf parent).takeWhile (fun c => !isSeparator c) := by
        rw [suffixOf, List.takeWhile_cons_of_pos (by decide)]
        exact List.mem_cons_self ..
      have hfree : ∀ c ∈ l ++ (suffixOf parent).takeWhile (fun c => !isSeparator c),
          isSeparator c = false := by
        intro c hc
        rcases List.mem_append.mp hc with hcl | hcs
        · exact hl c hcl
        · exact hhead c hcs
      rw [suffixTail, htail, ← List.nil_append (c :: t), plainLabels_append_cons [] t hc]
      rw [htail] at hparts
      rw [← hparts, ← List.append_assoc, plainLabels_append_cons _ t hc,
        plainLabels_of_dot (List.mem_append_right _ hdot) hfree]
      rfl

/-- For a parent with a separator, a list is in normal form if it has no labels, or
    those that stand in the name of the parent after its first separator. -/
theorem normalForm_iff_of_split (hsplit : ∃ c ∈ suffixOf parent, isSeparator c = true) :
    NormalForm raw parent ↔ plainLabels raw = [] ∨
      distinct (plainLabels (suffixTail (suffixOf parent))) = distinct (plainLabels raw) := by
  have hparse : ∀ text, parseChildLabels text parent = distinct (plainLabels text) := by
    intro text
    rw [parseChildLabels_eq, filterMap_labelOf_of_split hsplit]
  have hlabels : ∀ l ∈ parseChildLabels raw parent, IsLabel l := fun l => isLabel_of_mem
  have htrim : ∀ l ∈ parseChildLabels raw parent, Trimmed l := by
    intro l hl
    rw [hparse, mem_distinct] at hl
    rcases List.mem_map.mp (List.mem_filter.mp hl).1 with ⟨seg, _, hseg⟩
    rw [← hseg]
    exact trimmed_clean seg
  have hsuffixed : plainLabels
      (joinCommas ((parseChildLabels raw parent).map (· ++ suffixOf parent))) =
        (parseChildLabels raw parent).flatMap
          (fun _ => plainLabels (suffixTail (suffixOf parent))) := by
    rw [plainLabels_join, List.flatMap_map]
    exact List.flatMap_congr (fun l hl => plainLabels_suffixed hsplit (hlabels l hl).free)
  have hback : parseChildLabels
      (joinCommas ((parseChildLabels raw parent).map (· ++ suffixOf parent))) parent =
        parseChildLabels raw parent ↔ plainLabels raw = [] ∨
          distinct (plainLabels (suffixTail (suffixOf parent))) = distinct (plainLabels raw) := by
    rw [hparse (joinCommas _), hsuffixed, ← distinct_eq_nil_iff, ← hparse raw]
    cases parseChildLabels raw parent with
    | nil => exact iff_of_true rfl (Or.inl rfl)
    | cons l ls =>
        -- Every label brings the same ones, so only the first counts.
        have hsub : ls.flatMap (fun _ => plainLabels (suffixTail (suffixOf parent))) ⊆
            plainLabels (suffixTail (suffixOf parent)) := by
          intro x hx
          rcases List.mem_flatMap.mp hx with ⟨_, _, hmem⟩
          exact hmem
        rw [List.flatMap_cons, distinct_append_of_subset hsub]
        exact (or_iff_right (List.cons_ne_nil l ls)).symm
  constructor
  · exact fun h => hback.mp h.suffixed
  · intro h
    exact
      { labels := fun l hl => ⟨(hlabels l hl).nonempty, (hlabels l hl).dotless,
          Unicode.strip_of_trimmed (htrim l hl)⟩
        distinct := nodup_parseChildLabels raw parent
        bare := parse_bare hlabels htrim (nodup_parseChildLabels raw parent)
        suffixed := hback.mpr h }

end Split

/-! ## Any parent -/

/-- No label is followed by whitespace and the suffix; or if the name of the parent
    has a separator in it, there are no labels or those after that separator. -/
structure Readable (raw parent : PyStr) : Prop where
  tidy : (∀ c ∈ suffixOf parent, isSeparator c = false) → Tidy raw (suffixOf parent)
  split : (∃ c ∈ suffixOf parent, isSeparator c = true) → plainLabels raw = [] ∨
    distinct (plainLabels (suffixTail (suffixOf parent))) = distinct (plainLabels raw)

/-- For every raw text and every parent without spaces. -/
theorem normalForm_iff (raw parent : PyStr) (hspace : 32 ∉ parent) :
    NormalForm raw parent ↔ Readable raw parent := by
  by_cases hfree : ∀ c ∈ suffixOf parent, isSeparator c = false
  · rw [normalForm_iff_of_free hspace hfree]
    refine ⟨fun h => ⟨fun _ => h, fun ⟨c, hc, hsep⟩ => ?_⟩, fun h => h.tidy hfree⟩
    rw [hfree c hc] at hsep
    exact absurd hsep Bool.false_ne_true
  · have hsplit : ∃ c ∈ suffixOf parent, isSeparator c = true := by
      by_contra hno
      exact hfree (fun c hc => Bool.eq_false_iff.mpr (fun hsep => hno ⟨c, hc, hsep⟩))
    rw [normalForm_iff_of_split hsplit]
    exact ⟨fun h => ⟨fun hc => absurd hc hfree, fun _ => h⟩, fun h => h.split hsplit⟩

namespace Pasted

def root : PyStr := lit "axl.eth"

def mixed : PyStr := lit "Goat, he he.axl.eth,goat"

def tabbed : PyStr := lit "goat\t.axl.eth"

/-- Labels in either form are read and parsed back. -/
theorem mixed_readable : 32 ∉ root ∧ NormalForm mixed root ∧ Readable mixed root := by
  have hspace : 32 ∉ root := by decide
  have hform : NormalForm mixed root :=
    { labels := by decide +kernel
      distinct := by decide +kernel
      bare := by decide +kernel
      suffixed := by decide +kernel }
  exact ⟨hspace, hform, (normalForm_iff mixed root hspace).mp hform⟩

/-- A tab before the suffix becomes a part of the label. -/
theorem tabbed_unreadable : lower root = root ∧ 32 ∉ root ∧ ¬ NormalForm tabbed root := by
  refine ⟨by decide +kernel, by decide, fun h => ?_⟩
  have hlabel := h.labels (lit "goat\t") (by decide +kernel)
  exact absurd hlabel.2.2 (by decide +kernel)

end Pasted

end WhisperNet
