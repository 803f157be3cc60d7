import WhisperNet.Lib.Pieces
import WhisperNet.Pyens.Reference

/-!
# Minting a Name

A name is minted below its parent: the registry is sent the node of the parent and
the hash of the first label, and the new node is the hash of the two. The owner of
a name is read at the node of the whole name. Both are chains of hashes over
labels, so they are the same node if they go through the same labels.

The parent and the label are normalised one by one, the whole name at once, and
each is taken as it is where the normaliser raises. A label that the normaliser
does not accept therefore makes the whole name be taken as it is, with the labels
beside it in the form they are written in, and the ends of a label that stands
inside a name are not trimmed. `minted_iff_coherent` says when that makes no
difference.

## Main definitions

* `Plain`: A text that reading and normalising leave as it is.
* `Coherent`: The condition.

## Theorems

* `splitOn_removeSpaces`: Labels may be freed of their spaces before or after.
* `clean_of_spaced`: A text whose only whitespace is spaces needs no trimming.
* `normName_eq_iff`: When a part of a name is taken as it is written.
* `labels_agree_iff`: When the labels of the two nodes are the same.
* `minted_iff_coherent`: When the nodes are.
-/

namespace WhisperNet

open Unicode (lower isMark Trimmed)

/-- There is no whitespace but spaces at the ends of the text, and the normaliser
    raises on it or leaves it as it is. -/
structure Plain (ens : PyStr → Option PyStr) (s : PyStr) : Prop where
  ends : clean s = removeSpaces s
  form : ∀ n, ens (clean s) = some n → n = clean s

/-- The parent is not blank, and either the whole name is accepted or its label and
    its parent are plain. -/
structure Coherent (ens : PyStr → Option PyStr) (fqdn : PyStr) : Prop where
  named : clean (parentOf fqdn) ≠ []
  alike : (ens (clean fqdn)).isSome ∨ Plain ens (firstLabel fqdn) ∧ Plain ens (parentOf fqdn)

/-! ## Texts that are split -/

theorem splitOn_removeSpaces (s : PyStr) :
    (removeSpaces s).splitOn dot = (s.splitOn dot).map removeSpaces :=
  splitOn_filter (by decide) s

/-- A character of a joined text is a dot or in one of the labels. -/
theorem mem_joinDots {parts : List PyStr} {c : CodePoint} (h : c ∈ joinDots parts) :
    c = dot ∨ ∃ x ∈ parts, c ∈ x := by
  induction parts with
  | nil => exact absurd h List.not_mem_nil
  | cons x parts ih =>
      cases parts with
      | nil =>
          rw [joinDots, List.intercalate_singleton] at h
          exact Or.inr ⟨x, List.mem_cons_self .., h⟩
      | cons y parts =>
          rw [joinDots, List.intercalate_cons_cons, List.append_assoc, List.singleton_append]
            at h
          rcases List.mem_append.mp h with hx | hrest
          · exact Or.inr ⟨x, List.mem_cons_self .., hx⟩
          · rcases List.mem_cons.mp hrest with hdot | hrest
            · exact Or.inl hdot
            · rcases ih hrest with hdot | ⟨z, hz, hc⟩
              · exact Or.inl hdot
              · exact Or.inr ⟨z, List.mem_cons_of_mem _ hz, hc⟩

theorem splitOn_joinDots {parts : List PyStr} (hne : parts ≠ []) (h : ∀ x ∈ parts, dot ∉ x) :
    (joinDots parts).splitOn dot = parts :=
  List.splitOn_intercalate dot h hne

theorem joinDots_splitOn (s : PyStr) : joinDots (s.splitOn dot) = s := List.intercalate_splitOn dot

theorem splitOn_inj {s t : PyStr} (h : s.splitOn dot = t.splitOn dot) : s = t := by
  rw [← joinDots_splitOn s, h, joinDots_splitOn]

/-! ## Parts of a name -/

/-- Spaces at the ends are taken out with all the others. -/
theorem removeSpaces_strip {s : PyStr} (h : ∀ c ∈ s, Unicode.isSpace c = true → c = 32) :
    removeSpaces (Unicode.strip s) = removeSpaces s := by
  have hdrop : ∀ c ∈ s, Unicode.isSpace c = true → decide (c ≠ 32) = false :=
    fun c hc hspace => decide_eq_false (not_not_intro (h c hc hspace))
  have hfront : removeSpaces (s.dropWhile Unicode.isSpace) = removeSpaces s :=
    filter_dropWhile_of_imp hdrop
  have hback : ∀ c ∈ (s.dropWhile Unicode.isSpace).reverse, Unicode.isSpace c = true →
      decide (c ≠ 32) = false :=
    fun c hc => hdrop c ((List.dropWhile_sublist _).subset (List.mem_reverse.mp hc))
  rw [← hfront, Unicode.strip, List.rdropWhile, removeSpaces, List.filter_reverse,
    filter_dropWhile_of_imp hback, List.filter_reverse, List.reverse_reverse]
  rfl

/-- A part of a name in lower case whose only whitespace is spaces needs no trimming. -/
theorem clean_of_spaced {s : PyStr} (hsettled : ∀ c ∈ s, Unicode.Settled c)
    (h : ∀ c ∈ s, Unicode.isSpace c = true → c = 32) : clean s = removeSpaces s := by
  have hlower : lower (Unicode.strip s) = Unicode.strip s :=
    Unicode.lower_of_settled (fun c hc => hsettled c (mem_of_mem_strip hc))
  rw [clean, hlower, removeSpaces_strip h]

/-- What has no whitespace once the spaces are out has no whitespace but spaces. -/
theorem spaced_of_inked {s : PyStr} (h : ∀ c ∈ removeSpaces s, Unicode.isSpace c = false) :
    ∀ c ∈ s, Unicode.isSpace c = true → c = 32 := by
  intro c hc hspace
  by_contra hne
  have hink := h c (List.mem_filter.mpr ⟨hc, decide_eq_true hne⟩)
  rw [hspace] at hink
  exact Bool.false_ne_true hink.symm

/-- The whole name in lower case, and its two parts. -/
theorem splitOn_name {fqdn : PyStr} (h : 2 ≤ ((lower (Unicode.strip fqdn)).splitOn dot).length) :
    ∃ rest, (lower (Unicode.strip fqdn)).splitOn dot = firstLabel fqdn :: rest ∧ rest ≠ [] ∧
      parentOf fqdn = joinDots rest := by
  unfold firstLabel parentOf
  rcases List.exists_cons_of_ne_nil (List.splitOn_ne_nil dot (lower (Unicode.strip fqdn))) with
    ⟨l, rest, hsplit⟩
  rw [hsplit] at h ⊢
  refine ⟨rest, rfl, ?_, rfl⟩
  intro hrest
  rw [hrest, List.length_singleton] at h
  exact absurd h (by decide)

theorem firstLabel_mem (fqdn : PyStr) :
    firstLabel fqdn ∈ (lower (Unicode.strip fqdn)).splitOn dot := by
  rcases List.exists_cons_of_ne_nil (List.splitOn_ne_nil dot (lower (Unicode.strip fqdn))) with
    ⟨l, rest, hsplit⟩
  rw [firstLabel, hsplit]
  exact List.mem_cons_self ..

theorem settled_firstLabel (fqdn : PyStr) : ∀ c ∈ firstLabel fqdn, Unicode.Settled c :=
  fun c hc => Unicode.settled_lower _ c (subset_of_mem_splitOn (firstLabel_mem fqdn) hc)

/-- The first label of a name has no dots. -/
theorem dot_not_mem_firstLabel (fqdn : PyStr) : dot ∉ firstLabel fqdn :=
  not_mem_of_mem_splitOn (firstLabel_mem fqdn)

theorem settled_parentOf (fqdn : PyStr) : ∀ c ∈ parentOf fqdn, Unicode.Settled c := by
  intro c hc
  rcases mem_joinDots hc with hdot | ⟨x, hx, hcx⟩
  · rw [hdot]
    exact settled_dot
  · exact Unicode.settled_lower _ c (subset_of_mem_splitOn (List.mem_of_mem_tail hx) hcx)

/-! ## Labels -/

section Labels

variable {ens label : PyStr → Option PyStr}

/-- All labels of an accepted name are solid, before and after. -/
theorem LabelWise.solid_parts (H : LabelWise ens label) {xs ns : List PyStr}
    (h : xs.mapM label = some ns) :
    (∀ x ∈ xs, Solid x) ∧ (∀ n ∈ ns, Solid n) ∧ (xs ≠ [] → ns ≠ []) := by
  induction xs generalizing ns with
  | nil =>
      have hns : ns = [] := (Option.some.inj h).symm
      rw [hns]
      exact ⟨fun x hx => absurd hx List.not_mem_nil, fun n hn => absurd hn List.not_mem_nil,
        fun hne => absurd rfl hne⟩
  | cons x xs ih =>
      rw [List.mapM_cons] at h
      rcases Option.bind_eq_some_iff.mp h with ⟨n, hn, h⟩
      rcases Option.bind_eq_some_iff.mp h with ⟨rest, hrest, h⟩
      rw [← Option.some.inj h]
      rcases ih hrest with ⟨hxs, hns, -⟩
      exact ⟨List.forall_mem_cons.mpr ⟨H.accepted x n hn, hxs⟩,
        List.forall_mem_cons.mpr ⟨H.returned x n hn, hns⟩, fun _ => List.cons_ne_nil _ _⟩

theorem inked_dot : Unicode.isSpace dot = false := by decide

/-- What is joined from solid labels has no whitespace. -/
theorem inked_joinDots {parts : List PyStr} (h : ∀ x ∈ parts, Solid x) :
    ∀ c ∈ joinDots parts, Unicode.isSpace c = false := by
  intro c hc
  rcases mem_joinDots hc with hdot | ⟨x, hx, hcx⟩
  · rw [hdot]
    exact inked_dot
  · exact (h x hx).inked c hcx

/-- It is not empty, since no label is. -/
theorem joinDots_ne_nil {parts : List PyStr} (hne : parts ≠ []) (h : ∀ x ∈ parts, Solid x) :
    joinDots parts ≠ [] := by
  intro hnil
  have hsplit := splitOn_joinDots hne (fun x hx => (h x hx).dotless)
  rw [hnil, List.splitOn_nil] at hsplit
  refine (h [] ?_).nonempty rfl
  rw [← hsplit]
  exact List.mem_cons_self ..

/-- The normal form of a name is that of its labels, joined again. -/
theorem LabelWise.normal_form (H : LabelWise ens label) {s n : PyStr} (hs : s ≠ [])
    (h : ens s = some n) :
    ∃ ns, (s.splitOn dot).mapM label = some ns ∧ n = joinDots ns ∧ n.splitOn dot = ns ∧
      n ≠ [] ∧ ∀ c ∈ n, Unicode.isSpace c = false := by
  rw [H.name s hs, Option.map_eq_some_iff] at h
  rcases h with ⟨ns, hns, hjoin⟩
  rcases H.solid_parts hns with ⟨-, hsolid, hne⟩
  have hne := hne (List.splitOn_ne_nil dot s)
  refine ⟨ns, hns, hjoin.symm, ?_, ?_, ?_⟩
  · rw [← hjoin]
    exact splitOn_joinDots hne (fun x hx => (hsolid x hx).dotless)
  · rw [← hjoin]
    exact joinDots_ne_nil hne hsolid
  · rw [← hjoin]
    exact inked_joinDots hsolid

variable {P : Packages}

theorem normName_of_some {s n : PyStr} (h : P.ensNormalize (clean s) = some n) :
    P.normName s = n := by
  rw [Packages.normName, h]
  rfl

theorem normName_of_none {s : PyStr} (h : P.ensNormalize (clean s) = none) :
    P.normName s = clean s := by
  rw [Packages.normName, h]
  rfl

/-- A text that is not blank has a normal form that is not empty. -/
theorem normName_ne_nil (H : LabelWise P.ensNormalize label) {s : PyStr} (h : clean s ≠ []) :
    P.normName s ≠ [] := by
  cases hens : P.ensNormalize (clean s) with
  | none =>
      rw [normName_of_none hens]
      exact h
  | some n =>
      rcases H.normal_form h hens with ⟨_, _, _, _, hne, _⟩
      rw [normName_of_some hens]
      exact hne

theorem labelsOf_of_blank (H : LabelWise P.ensNormalize label) {s : PyStr} (h : clean s = []) :
    P.labelsOf s = [] := by
  have hens : P.ensNormalize (clean s) = some [] := by
    rw [h]
    exact H.empty
  rw [Packages.labelsOf, if_pos (Or.inr (normName_of_some hens))]

theorem labelsOf_of_named (H : LabelWise P.ensNormalize label) {s : PyStr} (h : clean s ≠ []) :
    P.labelsOf s = (P.normName s).splitOn dot := by
  have hs : s ≠ [] := by
    intro hnil
    rw [hnil] at h
    exact h rfl
  rw [Packages.labelsOf, if_neg (not_or_intro hs (normName_ne_nil H h))]

/-- A part of a name is taken as it is written if and only if it is plain. -/
theorem normName_eq_iff (H : LabelWise P.ensNormalize label) {s : PyStr}
    (hsettled : ∀ c ∈ s, Unicode.Settled c) :
    P.normName s = removeSpaces s ↔ Plain P.ensNormalize s := by
  constructor
  · intro h
    cases hens : P.ensNormalize (clean s) with
    | none =>
        rw [normName_of_none hens] at h
        refine ⟨h, fun n hn => ?_⟩
        rw [hens] at hn
        simp only [reduceCtorEq] at hn
    | some n =>
        rw [normName_of_some hens] at h
        -- The normal form has no whitespace, so neither has the text it is equal to.
        have hends : clean s = removeSpaces s := by
          by_cases hblank : clean s = []
          · rw [hblank, H.empty] at hens
            rw [hblank, ← h]
            exact Option.some.inj hens
          · rcases H.normal_form hblank hens with ⟨_, _, _, _, _, hinked⟩
            rw [h] at hinked
            exact clean_of_spaced hsettled (spaced_of_inked hinked)
        refine ⟨hends, fun m hm => ?_⟩
        rw [hens] at hm
        rw [← Option.some.inj hm, h, hends]
  · intro h
    cases hens : P.ensNormalize (clean s) with
    | none => rw [normName_of_none hens, h.ends]
    | some n => rw [normName_of_some hens, h.form n hens, h.ends]

/-- A part of an accepted name is accepted, and nothing of it is trimmed. -/
theorem accepted_part (H : LabelWise P.ensNormalize label) {s : PyStr} {ns : List PyStr}
    (hsettled : ∀ c ∈ s, Unicode.Settled c)
    (h : ((removeSpaces s).splitOn dot).mapM label = some ns) :
    clean s ≠ [] ∧ P.normName s = joinDots ns ∧ (joinDots ns).splitOn dot = ns := by
  rcases H.solid_parts h with ⟨hparts, hsolid, hne⟩
  have hne := hne (List.splitOn_ne_nil dot _)
  have hnil : removeSpaces s ≠ [] := by
    rw [← joinDots_splitOn (removeSpaces s)]
    exact joinDots_ne_nil (List.splitOn_ne_nil dot _) hparts
  -- The labels are solid, so there was nothing but spaces to take out.
  have hinked : ∀ c ∈ removeSpaces s, Unicode.isSpace c = false := by
    rw [← joinDots_splitOn (removeSpaces s)]
    exact inked_joinDots hparts
  have hclean : clean s = removeSpaces s := clean_of_spaced hsettled (spaced_of_inked hinked)
  have hens : P.ensNormalize (clean s) = some (joinDots ns) := by
    rw [hclean, H.name _ hnil, h]
    rfl
  refine ⟨?_, normName_of_some hens, splitOn_joinDots hne (fun x hx => (hsolid x hx).dotless)⟩
  rw [hclean]
  exact hnil

/-- The parts of a name that is read as a whole. -/
theorem splitOn_clean {fqdn : PyStr} (h : 2 ≤ ((lower (Unicode.strip fqdn)).splitOn dot).length) :
    (clean fqdn).splitOn dot =
      removeSpaces (firstLabel fqdn) :: (removeSpaces (parentOf fqdn)).splitOn dot := by
  rcases splitOn_name h with ⟨rest, hsplit, hrest, hparent⟩
  have hdotless : ∀ x ∈ rest, dot ∉ x := by
    intro x hx
    refine not_mem_of_mem_splitOn (s := lower (Unicode.strip fqdn)) ?_
    rw [hsplit]
    exact List.mem_cons_of_mem _ hx
  rw [clean, splitOn_removeSpaces, hsplit, List.map_cons, splitOn_removeSpaces, hparent,
    splitOn_joinDots hrest hdotless]

theorem clean_ne_nil_of_parts {fqdn : PyStr}
    (h : 2 ≤ ((lower (Unicode.strip fqdn)).splitOn dot).length) : clean fqdn ≠ [] := by
  intro hnil
  have hsplit := splitOn_clean h
  rw [hnil, List.splitOn_nil, List.cons.injEq] at hsplit
  exact List.splitOn_ne_nil dot _ hsplit.2.symm

/-- An accepted name has accepted parts, with the same labels. -/
theorem labels_agree_of_accepted (H : LabelWise P.ensNormalize label) {fqdn : PyStr}
    (h : 2 ≤ ((lower (Unicode.strip fqdn)).splitOn dot).length)
    (haccepted : (P.ensNormalize (clean fqdn)).isSome) :
    clean (parentOf fqdn) ≠ [] ∧
      P.labelsOf fqdn = P.normName (firstLabel fqdn) :: P.labelsOf (parentOf fqdn) := by
  rcases Option.isSome_iff_exists.mp haccepted with ⟨n, hn⟩
  rcases H.normal_form (clean_ne_nil_of_parts h) hn with ⟨ns, hns, -, hsplit, -, -⟩
  have hwhole : P.labelsOf fqdn = ns := by
    rw [labelsOf_of_named H (clean_ne_nil_of_parts h), normName_of_some hn, hsplit]
  rw [splitOn_clean h, List.mapM_cons] at hns
  rcases Option.bind_eq_some_iff.mp hns with ⟨m, hm, hns⟩
  rcases Option.bind_eq_some_iff.mp hns with ⟨ms, hms, hns⟩
  -- The label is a part with one label.
  have hdot : dot ∉ removeSpaces (firstLabel fqdn) :=
    fun hc => dot_not_mem_firstLabel fqdn (List.mem_filter.mp hc).1
  have hone : ((removeSpaces (firstLabel fqdn)).splitOn dot).mapM label = some [m] := by
    rw [List.splitOn_eq_singleton hdot, List.mapM_cons, hm]
    rfl
  rcases accepted_part H (settled_firstLabel fqdn) hone with ⟨-, hfirst, -⟩
  rcases accepted_part H (settled_parentOf fqdn) hms with ⟨hnamed, hparent, hback⟩
  refine ⟨hnamed, ?_⟩
  rw [hwhole, hfirst, joinDots, List.intercalate_singleton, labelsOf_of_named H hnamed, hparent,
    hback, ← Option.some.inj hns]

/-- The labels of a name that is not accepted are those of its parts if and only if
    both parts are plain. -/
theorem labels_agree_of_rejected (H : LabelWise P.ensNormalize label) {fqdn : PyStr}
    (h : 2 ≤ ((lower (Unicode.strip fqdn)).splitOn dot).length)
    (hrejected : P.ensNormalize (clean fqdn) = none) (hnamed : clean (parentOf fqdn) ≠ []) :
    P.labelsOf fqdn = P.normName (firstLabel fqdn) :: P.labelsOf (parentOf fqdn) ↔
      Plain P.ensNormalize (firstLabel fqdn) ∧ Plain P.ensNormalize (parentOf fqdn) := by
  rw [labelsOf_of_named H (clean_ne_nil_of_parts h), normName_of_none hrejected, splitOn_clean h,
    labelsOf_of_named H hnamed, ← normName_eq_iff H (settled_firstLabel fqdn),
    ← normName_eq_iff H (settled_parentOf fqdn), List.cons.injEq]
  constructor
  · rintro ⟨hfirst, hparent⟩
    exact ⟨hfirst.symm, splitOn_inj hparent.symm⟩
  · rintro ⟨hfirst, hparent⟩
    rw [hfirst, hparent]
    exact ⟨rfl, rfl⟩

theorem labels_agree_iff (H : LabelWise P.ensNormalize label) {fqdn : PyStr}
    (h : 2 ≤ ((lower (Unicode.strip fqdn)).splitOn dot).length) :
    P.labelsOf fqdn = P.normName (firstLabel fqdn) :: P.labelsOf (parentOf fqdn) ↔
      Coherent P.ensNormalize fqdn := by
  by_cases haccepted : (P.ensNormalize (clean fqdn)).isSome
  · rcases labels_agree_of_accepted H h haccepted with ⟨hnamed, hlabels⟩
    exact ⟨fun _ => ⟨hnamed, Or.inl haccepted⟩, fun _ => hlabels⟩
  · have hrejected := Option.not_isSome_iff_eq_none.mp haccepted
    by_cases hnamed : clean (parentOf fqdn) = []
    · -- A blank parent has no labels, and the whole name has two or more.
      refine ⟨fun hlabels => ?_, fun hc => absurd hnamed hc.named⟩
      rw [labelsOf_of_named H (clean_ne_nil_of_parts h), normName_of_none hrejected,
        splitOn_clean h, labelsOf_of_blank H hnamed, List.cons.injEq] at hlabels
      exact absurd hlabels.2 (List.splitOn_ne_nil dot _)
    · rw [labels_agree_of_rejected H h hrejected hnamed]
      exact ⟨fun hplain => ⟨hnamed, Or.inr hplain⟩,
        fun hc => hc.alike.resolve_left haccepted⟩

end Labels

/-! ## Nodes -/

section Nodes

variable {P : Packages} {label : PyStr → Option PyStr}

/-- What is hashed for the node that is read and for the node that is minted. -/
def hashedFor (P : Packages) (fqdn : PyStr) : List Bytes :=
  chainInputs P.keccak zeroNode ((P.labelsOf fqdn).map utf8) ++
    chainInputs P.keccak zeroNode
      ((P.normName (firstLabel fqdn) :: P.labelsOf (parentOf fqdn)).map utf8)

/-- The node that is minted is the node that is read if and only if the name is
    coherent. -/
theorem minted_iff_coherent (H : LabelWise P.ensNormalize label)
    (hlength : ∀ b, (P.keccak b).length = 32) {fqdn owner : PyStr} {resolver : Option PyStr}
    {data : Bytes} (hdata : P.encodeSetSubnodeRecordCalldata fqdn owner resolver = .ok data)
    (hfree : CollisionFree P.keccak zeroNode (hashedFor P fqdn)) :
    P.queriedNode fqdn = .ok (P.keccak ((data.drop 4).take 64)) ↔
      Coherent P.ensNormalize fqdn := by
  rcases calldata_eq_ok hdata with ⟨hparts, parentNode, labelH, rest, hparent, hlabel, hdata⟩
  rcases namehashBytes_eq_ok.mp hparent with ⟨hparentText, hparentNode⟩
  rcases of_labelhashBytes_eq_ok hlabel with ⟨hlabelText, hlabelH⟩
  have hchain : (hashChain P.keccak zeroNode ((P.labelsOf (parentOf fqdn)).map utf8)).length =
      32 := length_hashChain hlength rfl _
  -- The two words after the selector are the node of the parent and the hash of the label.
  have hsent : (data.drop 4).take 64 = parentNode ++ labelH := by
    have hselector : P.selector.length = 4 := by
      rw [Packages.selector, List.length_take, hlength]
      rfl
    have hboth : (parentNode ++ labelH).length = 64 := by
      rw [List.length_append, hparentNode, hchain, hlabelH, hlength]
    rw [hdata, List.drop_left' hselector, ← List.append_assoc, List.take_left' hboth]
  have hminted : P.keccak ((data.drop 4).take 64) = hashChain P.keccak zeroNode
      ((P.normName (firstLabel fqdn) :: P.labelsOf (parentOf fqdn)).map utf8) := by
    rw [hsent, hparentNode, hlabelH]
    rfl
  have htexts : ∀ l ∈ P.normName (firstLabel fqdn) :: P.labelsOf (parentOf fqdn),
      encode l = .ok (utf8 l) :=
    List.forall_mem_cons.mpr ⟨hlabelText, hparentText⟩
  rw [← labels_agree_iff H hparts, hminted, Packages.queriedNode, namehashBytes_eq_ok]
  constructor
  · rintro ⟨hread, hnodes⟩
    -- Equal nodes have equal bytes below them, and these are of the same labels.
    have hbytes := hashChain_inj hlength rfl hfree hnodes.symm
    exact map_utf8_inj hread htexts hbytes
  · intro hlabels
    rw [hlabels]
    exact ⟨htexts, rfl⟩

/-- For a name that has the labels of its parts, the chain of these is enough. -/
theorem hashedFor_free {fqdn : PyStr} {labels : List PyStr} (hwhole : P.labelsOf fqdn = labels)
    (hparts : P.normName (firstLabel fqdn) :: P.labelsOf (parentOf fqdn) = labels)
    (hfree : CollisionFree P.keccak zeroNode
      (chainInputs P.keccak zeroNode (labels.map utf8))) :
    CollisionFree P.keccak zeroNode (hashedFor P fqdn) := by
  refine hfree.mono ?_
  rw [hashedFor, hparts, hwhole]
  exact List.append_subset.mpr ⟨List.Subset.refl _, List.Subset.refl _⟩

end Nodes

namespace Goat

def owner : PyStr := lit "0xE99638b40E4Fff0129D56f03b55b6bbC4BBE49b5"

def name : PyStr := lit "goat.axl.eth"

def tabbed : PyStr := lit "goat\t.axl.eth"

theorem nodup_digests :
    (zeroNode :: (chainInputs keccak256 zeroNode
      ([lit "goat", lit "axl", lit "eth"].map utf8)).map keccak256).Nodup := by
  decide +kernel

/-- A name with accepted labels is minted where it is read. -/
theorem name_minted :
    ∃ data, Ascii.packages.encodeSetSubnodeRecordCalldata name owner none = .ok data ∧
      Ascii.packages.queriedNode name = .ok (Ascii.packages.keccak ((data.drop 4).take 64)) ∧
      Coherent Ascii.packages.ensNormalize name := by
  have hwhole : Ascii.packages.labelsOf name = [lit "goat", lit "axl", lit "eth"] := by
    decide +kernel
  have hparts : Ascii.packages.normName (firstLabel name) ::
      Ascii.packages.labelsOf (parentOf name) = [lit "goat", lit "axl", lit "eth"] := by
    decide +kernel
  have hfree : CollisionFree Ascii.packages.keccak zeroNode (hashedFor Ascii.packages name) :=
    hashedFor_free hwhole hparts (collisionFree_of_nodup nodup_digests)
  have hcoherent : Coherent Ascii.packages.ensNormalize name :=
    ⟨by decide +kernel, Or.inl (by decide +kernel)⟩
  have hsent : (Ascii.packages.encodeSetSubnodeRecordCalldata name owner none).isOk = true := by
    decide +kernel
  rcases exists_of_isOk hsent with ⟨data, hdata⟩
  exact ⟨data, hdata,
    (minted_iff_coherent Ascii.labelWise length_keccak256 hdata hfree).mpr hcoherent, hcoherent⟩

/-- A label is minted without the tab after it, and the whole name is read with it. -/
theorem tabbed_unread :
    LabelWise Ascii.packages.ensNormalize Ascii.normalizeLabel ∧
      tabbed = lit "goat\t" ++ dot :: lit "axl.eth" ∧ dot ∉ lit "goat\t" ∧
      ∃ data, Ascii.packages.encodeSetSubnodeRecordCalldata tabbed owner none = .ok data ∧
        Ascii.packages.queriedNode tabbed ≠
          .ok (Ascii.packages.keccak ((data.drop 4).take 64)) := by
  have hsent : (Ascii.packages.encodeSetSubnodeRecordCalldata tabbed owner none).isOk = true := by
    decide +kernel
  have hnodes : Ascii.packages.queriedNode tabbed ≠ .ok (Ascii.packages.keccak
      ((((Ascii.packages.encodeSetSubnodeRecordCalldata tabbed owner none).toOption.getD []).drop
        4).take 64)) := by
    decide +kernel
  rcases exists_of_isOk hsent with ⟨data, hdata⟩
  rw [hdata] at hnodes
  exact ⟨Ascii.labelWise, by decide +kernel, by decide +kernel, data, hdata, hnodes⟩

end Goat

end WhisperNet
