import WhisperNet.Pyens.History
import WhisperNet.Pyens.Minting

/-!
# Names Minted by Their Owner

The owner of the parent is read before a transaction is built, by the name of the
parent. The transaction is built from the whole name, which is taken apart again.
Both go through the hash of a name, and the parent that is taken out of the name is
the one that was checked, since the label has no dot and nothing of the name is
trimmed. So the registry named the signer as the owner of the very node that is in
the data of the transaction.

A text that cannot be encoded cannot be hashed, so the names that were minted have
no surrogates and the file gives them back as they are.

## Main definitions

* `Cmd.Asks`: The names that a command asks for.
* `Granted`: When a command is granted a name.

## Theorems

* `mem_granted`: A command is granted the names it asks for, owns and pays for.
* `firstLabel_name`, `parentOf_name`: A name is taken apart as it was put together.
* `Granted.authorised`: The node in the data is one of the signer.
* `Granted.clear`: The file can express what was minted.
* `file_holds_history`: The file holds the history.
* `logged_iff_granted`: The log has what was granted, and that by the owner.
-/

namespace WhisperNet

namespace Pyens

open PyVal (get)
open Unicode (lower Trimmed)

/-- The owner that is asked for. -/
def Cmd.owner : Cmd → Option PyStr
  | .createSub _ owner _ => owner
  | .createNested _ _ owner _ => owner

def Cmd.wait : Cmd → Bool
  | .createSub _ _ wait => wait
  | .createNested _ _ _ wait => wait

/-- A command asks for a name if it is a label below the parent. -/
def Cmd.Asks : Cmd → Minting → Prop
  | .createSub label _ _, m =>
    m.kind = .sub ∧ m.parent = rootName ∧ clean label ≠ [] ∧ dot ∉ clean label ∧
      m.name = clean label ++ dot :: m.parent
  | .createNested parent labelsRaw _ _, m =>
    m.kind = .nested ∧ m.parent = clean parent ∧
      (m.parent = rootName ∨ (dot :: rootName) <:+ m.parent) ∧
      ∃ label ∈ parseChildLabels labelsRaw m.parent, m.name = label ++ dot :: m.parent

/-- A command is granted a name if it asks for it, the signer owns the parent, the
    transaction was taken and it was not found to be reverted. -/
structure Granted (P : Packages) (c : Call) (m : Minting) : Prop where
  asked : c.cmd.Asks m
  owned : ∃ owner, readOwner P c.chain m.parent = .ok owner ∧
    lower owner = lower c.chain.signer
  /-- for a name below the root the resolver is read as well -/
  resolved : m.kind = .sub → ∃ r, readRootOwnerResolver P c.chain = .ok r
  sent : ∃ owner data, normOwner c.chain c.cmd.owner c.chain.signer = .ok owner ∧
    P.encodeSetSubnodeRecordCalldata m.name owner none = .ok data ∧
    c.chain.send m.name data = .ok m.hash
  confirmed : c.cmd.wait = true →
    ∃ status, c.chain.receipt m.hash = .ok status ∧ status ≠ some 0

/-! ## When a name is granted -/

section Grants

variable {P : Packages} {C : Chain}

theorem sendAndWait_eq_ok {fqdn owner txh : PyStr} {wait : Bool} {onRevert : Stop} :
    sendAndWait P C fqdn owner wait onRevert = .ok txh ↔
      (∃ data, P.encodeSetSubnodeRecordCalldata fqdn owner none = .ok data ∧
        C.send fqdn data = .ok txh) ∧
      (wait = true → ∃ status, C.receipt txh = .ok status ∧ status ≠ some 0) := by
  have hsend : sendRegistryCreateSubname P C fqdn owner = .ok txh ↔
      ∃ data, P.encodeSetSubnodeRecordCalldata fqdn owner none = .ok data ∧
        C.send fqdn data = .ok txh := bind_eq_ok
  have hstatus : ∀ status : Option Int, status.getD 1 = 0 ↔ status = some 0 := by
    intro status
    cases status with
    | none => simp
    | some n => simp
  rw [← hsend]
  cases wait with
  | false =>
      have hplain : sendAndWait P C fqdn owner false onRevert =
          (raising (sendRegistryCreateSubname P C fqdn owner)).bind (fun txh => .ok txh) := rfl
      rw [hplain, Stop.bind_eq_ok]
      simp [raising_eq_ok]
  | true =>
      have hwait : sendAndWait P C fqdn owner true onRevert =
          (raising (sendRegistryCreateSubname P C fqdn owner)).bind (fun txh =>
            (raising (C.receipt txh)).bind (fun status =>
              if status.getD 1 = 0 then .error onRevert else .ok txh)) := rfl
      rw [hwait, Stop.bind_eq_ok]
      simp only [raising_eq_ok, Stop.bind_eq_ok, hstatus]
      constructor
      · rintro ⟨h, hh, status, hs, hend⟩
        split at hend
        · simp only [reduceCtorEq] at hend
        · rename_i hne
          rw [Except.ok.injEq] at hend
          rw [← hend]
          exact ⟨hh, fun _ => ⟨status, hs, hne⟩⟩
      · rintro ⟨hh, hconfirmed⟩
        rcases hconfirmed trivial with ⟨status, hs, hne⟩
        exact ⟨txh, hh, status, hs, if_neg hne⟩

theorem readRoot_eq_ok {r : PyStr × PyStr} (h : readRootOwnerResolver P C = .ok r) :
    readOwner P C rootName = .ok r.1 := by
  rcases bind_eq_ok.mp h with ⟨node, hnode, h⟩
  rcases bind_eq_ok.mp h with ⟨owner, howner, h⟩
  rcases bind_eq_ok.mp h with ⟨resolver, _, h⟩
  rw [← Except.ok.inj h]
  exact bind_eq_ok.mpr ⟨node, hnode, howner⟩

theorem mintSub_eq_ok {label full txh : PyStr} {owner : Option PyStr} {wait : Bool} :
    mintSub P C label owner wait = .ok (full, txh) ↔
      (∃ r, readRootOwnerResolver P C = .ok r ∧ lower r.1 = lower C.signer) ∧
      clean label ≠ [] ∧ dot ∉ clean label ∧ full = clean label ++ dot :: rootName ∧
      ∃ ownerCs, normOwner C owner C.signer = .ok ownerCs ∧
        sendAndWait P C full ownerCs wait (.exit (lit "Transaction reverted.")) = .ok txh := by
  have hmint : mintSub P C label owner wait =
      (raising (readRootOwnerResolver P C)).bind (fun r =>
        if lower r.1 ≠ lower C.signer then
          .error (.exit (notRootOwner r.1))
        else if clean label = [] ∨ dot ∈ clean label then
          .error (.exit (lit "Enter a single label (e.g. hehe)."))
        else (normOwner C owner C.signer).bind (fun ownerCs =>
          (sendAndWait P C (clean label ++ dot :: rootName) ownerCs wait
            (.exit (lit "Transaction reverted."))).bind (fun txh =>
              .ok (clean label ++ dot :: rootName, txh)))) := rfl
  rw [hmint, Stop.bind_eq_ok]
  simp only [raising_eq_ok]
  constructor
  · rintro ⟨r, hr, h⟩
    split at h
    · simp only [reduceCtorEq] at h
    · rename_i howner
      split at h
      · simp only [reduceCtorEq] at h
      · rename_i hlabel
        rcases Stop.bind_eq_ok.mp h with ⟨ownerCs, hnorm, h⟩
        rcases Stop.bind_eq_ok.mp h with ⟨txh', hsend, h⟩
        rw [Except.ok.injEq, Prod.mk.injEq] at h
        rw [← h.1, ← h.2]
        exact ⟨⟨r, hr, not_not.mp howner⟩, fun hc => hlabel (Or.inl hc),
          fun hc => hlabel (Or.inr hc), rfl, ownerCs, hnorm, hsend⟩
  · rintro ⟨⟨r, hr, howner⟩, hne, hdot, hfull, ownerCs, hnorm, hsend⟩
    rw [hfull] at hsend ⊢
    refine ⟨r, hr, ?_⟩
    rw [if_neg (not_not.mpr howner), if_neg (not_or_intro hne hdot)]
    exact Stop.bind_eq_ok.mpr ⟨ownerCs, hnorm, Stop.bind_eq_ok.mpr ⟨txh, hsend, rfl⟩⟩

theorem planNested_eq_ok {parent labelsRaw parentName nestedOwner : PyStr}
    {labels : List PyStr} {owner : Option PyStr} :
    planNested P C parent labelsRaw owner = .ok (parentName, labels, nestedOwner) ↔
      parentName = clean parent ∧ parentName ≠ [] ∧
      (parentName = rootName ∨ (dot :: rootName) <:+ parentName) ∧
      labels = parseChildLabels labelsRaw parentName ∧ labels ≠ [] ∧
      (∃ o, readOwner P C parentName = .ok o ∧ lower o = lower C.signer) ∧
      normOwner C owner C.signer = .ok nestedOwner := by
  have hplan : planNested P C parent labelsRaw owner =
      if clean parent = [] then
        .error (.exit (lit "Set parent under axl.eth (e.g. hehe.axl.eth)."))
      else if clean parent ≠ rootName ∧ ¬ (dot :: rootName) <:+ clean parent then
        .error (.exit (lit "Parent must be axl.eth or a name ending .axl.eth"))
      else if parseChildLabels labelsRaw (clean parent) = [] then
        .error (.exit noLabels)
      else (raising (readOwner P C (clean parent))).bind (fun o =>
        if lower o ≠ lower C.signer then
          .error (.exit (notParentOwner o))
        else (normOwner C owner C.signer).bind (fun nestedOwner =>
          .ok (clean parent, parseChildLabels labelsRaw (clean parent), nestedOwner))) := rfl
  rw [hplan]
  constructor
  · intro h
    split at h
    · simp only [reduceCtorEq] at h
    · rename_i hne
      split at h
      · simp only [reduceCtorEq] at h
      · rename_i hbelow
        split at h
        · simp only [reduceCtorEq] at h
        · rename_i hlabels
          rcases Stop.bind_eq_ok.mp h with ⟨o, ho, h⟩
          rw [raising_eq_ok] at ho
          split at h
          · simp only [reduceCtorEq] at h
          · rename_i howner
            rcases Stop.bind_eq_ok.mp h with ⟨nestedOwner', hnorm, h⟩
            rw [Except.ok.injEq, Prod.mk.injEq, Prod.mk.injEq] at h
            rw [← h.1, ← h.2.1, ← h.2.2]
            refine ⟨rfl, hne, ?_, rfl, hlabels, ⟨o, ho, not_not.mp howner⟩, hnorm⟩
            rw [not_and_or, not_not, not_not] at hbelow
            exact hbelow
  · rintro ⟨hparent, hne, hbelow, hlabels, hsome, ⟨o, ho, howner⟩, hnorm⟩
    rw [hlabels] at hsome ⊢
    rw [hparent] at hne hbelow hsome ho ⊢
    have hnot : ¬ (clean parent ≠ rootName ∧ ¬ (dot :: rootName) <:+ clean parent) := by
      rw [not_and_or, not_not, not_not]
      exact hbelow
    rw [if_neg hne, if_neg hnot, if_neg hsome]
    refine Stop.bind_eq_ok.mpr ⟨o, raising_eq_ok.mpr ho, ?_⟩
    rw [if_neg (not_not.mpr howner)]
    exact Stop.bind_eq_ok.mpr ⟨nestedOwner, hnorm, rfl⟩

end Grants

theorem toOption_eq_some {ε α : Type} {x : Except ε α} {a : α} :
    x.toOption = some a ↔ x = .ok a := by
  cases x with
  | error e => simp only [Except.toOption, reduceCtorEq]
  | ok b => simp only [Except.toOption, Option.some.injEq, Except.ok.injEq]

/-- A command is granted the names it asks for, owns and pays for. -/
theorem mem_granted {P : Packages} {c : Call} {m : Minting} :
    m ∈ c.granted P ↔ Granted P c m := by
  rcases c with ⟨C, cmd⟩
  cases cmd with
  | createSub label owner wait =>
      have hmem : m ∈ Call.granted P ⟨C, .createSub label owner wait⟩ ↔
          m.kind = .sub ∧ m.parent = rootName ∧
            mintSub P C label owner wait = .ok (m.name, m.hash) := by
        unfold Call.granted
        dsimp only
        cases mintSub P C label owner wait with
        | error e => simp only [List.not_mem_nil, reduceCtorEq, and_false]
        | ok minted =>
            rcases minted with ⟨full, txh⟩
            rcases m with ⟨kind, parent, name, hash⟩
            simp only [List.mem_singleton, Minting.mk.injEq, Except.ok.injEq, Prod.mk.injEq,
              eq_comm]
      rw [hmem, mintSub_eq_ok]
      constructor
      · rintro ⟨hkind, hparent, ⟨r, hr, howner⟩, hne, hdot, hfull, ownerCs, hnorm, hsend⟩
        rcases sendAndWait_eq_ok.mp hsend with ⟨⟨data, hdata, htx⟩, hconfirmed⟩
        refine ⟨⟨hkind, hparent, hne, hdot, ?_⟩, ⟨r.1, ?_, howner⟩, fun _ => ⟨r, hr⟩,
          ⟨ownerCs, data, hnorm, hdata, htx⟩, hconfirmed⟩
        · rw [hparent]
          exact hfull
        · rw [hparent]
          exact readRoot_eq_ok hr
      · rintro ⟨⟨hkind, hparent, hne, hdot, hfull⟩, ⟨o, ho, howner⟩, hresolved,
          ⟨ownerCs, data, hnorm, hdata, htx⟩, hconfirmed⟩
        rcases hresolved hkind with ⟨r, hr⟩
        rw [hparent] at hfull ho
        -- The owner was read twice in the statement and once by the command.
        have hsame : r.1 = o := Except.ok.inj ((readRoot_eq_ok hr).symm.trans ho)
        exact ⟨hkind, hparent, ⟨r, hr, by rw [hsame]; exact howner⟩, hne, hdot, hfull, ownerCs,
          hnorm, sendAndWait_eq_ok.mpr ⟨⟨data, hdata, htx⟩, hconfirmed⟩⟩
  | createNested parent labelsRaw owner wait =>
      have hmem : m ∈ Call.granted P ⟨C, .createNested parent labelsRaw owner wait⟩ ↔
          m.kind = .nested ∧ ∃ labels nestedOwner,
            planNested P C parent labelsRaw owner = .ok (m.parent, labels, nestedOwner) ∧
            ∃ label ∈ labels, m.name = label ++ dot :: m.parent ∧
              mintChild P C m.parent nestedOwner wait label = .ok m.hash := by
        unfold Call.granted
        dsimp only
        cases planNested P C parent labelsRaw owner with
        | error e => simp only [List.not_mem_nil, reduceCtorEq, false_and, exists_false, and_false]
        | ok plan =>
            rcases plan with ⟨parentName, labels, nestedOwner⟩
            rcases m with ⟨kind, mparent, name, hash⟩
            simp only [List.mem_filterMap, Option.map_eq_some_iff, Minting.mk.injEq,
              Except.ok.injEq, Prod.mk.injEq]
            constructor
            · rintro ⟨label, hlabel, txh, htx, hkind, hparent, hname, hhash⟩
              refine ⟨hkind.symm, labels, nestedOwner, ⟨hparent, rfl, rfl⟩, label, hlabel, ?_, ?_⟩
              · rw [← hparent]
                exact hname.symm
              · rw [← hparent, ← hhash]
                exact toOption_eq_some.mp htx
            · rintro ⟨hkind, labels', nestedOwner', ⟨hparent, hlabels, hnested⟩, label, hlabel,
                hname, htx⟩
              rw [← hparent, ← hnested] at htx
              rw [← hparent] at hname
              rw [← hlabels] at hlabel
              exact ⟨label, hlabel, hash, toOption_eq_some.mpr htx, hkind.symm, hparent,
                hname.symm, rfl⟩
      rw [hmem]
      constructor
      · rintro ⟨hkind, labels, nestedOwner, hplan, label, hlabel, hname, hmint⟩
        rcases planNested_eq_ok.mp hplan with ⟨hparent, _, hbelow, hlabels, _, howned, hnorm⟩
        rcases sendAndWait_eq_ok.mp hmint with ⟨⟨data, hdata, htx⟩, hconfirmed⟩
        rw [← hname] at hdata htx
        rw [hlabels] at hlabel
        refine ⟨⟨hkind, hparent, hbelow, label, hlabel, hname⟩, howned, fun hsub => ?_,
          ⟨nestedOwner, data, hnorm, hdata, htx⟩, hconfirmed⟩
        rw [hkind] at hsub
        exact absurd hsub (by decide)
      · rintro ⟨⟨hkind, hparent, hbelow, label, hlabel, hname⟩, howned, _,
          ⟨nestedOwner, data, hnorm, hdata, htx⟩, hconfirmed⟩
        have hne : m.parent ≠ [] := by
          intro hnil
          rcases hbelow with h | h
          · rw [hnil] at h
            exact absurd h (by decide)
          · rw [hnil] at h
            exact absurd (List.suffix_nil.mp h) (List.cons_ne_nil _ _)
        refine ⟨hkind, parseChildLabels labelsRaw m.parent, nestedOwner,
          planNested_eq_ok.mpr ⟨hparent, hne, hbelow, rfl, List.ne_nil_of_mem hlabel, howned,
            hnorm⟩, label, hlabel, hname, sendAndWait_eq_ok.mpr ⟨⟨data, ?_, ?_⟩, hconfirmed⟩⟩
        · rw [← hname]
          exact hdata
        · rw [← hname]
          exact htx

/-! ## The parts of a name -/

section Parts

variable {label parent : PyStr}

/-- A label and a parent as they stand in a name that is minted. -/
structure Parted (label parent : PyStr) : Prop where
  nonempty : label ≠ []
  dotless : dot ∉ label
  settled : ∀ c ∈ label ++ dot :: parent, Unicode.Settled c
  spaceless : 32 ∉ label ++ dot :: parent
  head : ∀ c, label.head? = some c → Unicode.isSpace c = false
  trimmed : Trimmed parent

theorem lower_strip_name (h : Parted label parent) :
    lower (Unicode.strip (label ++ dot :: parent)) = label ++ dot :: parent := by
  have htrimmed : Trimmed (label ++ dot :: parent) := by
    constructor
    · intro c hc
      rw [List.head?_append_of_ne_nil _ h.nonempty] at hc
      exact h.head c hc
    · intro c hc
      rw [List.getLast?_append_of_ne_nil _ (List.cons_ne_nil _ _)] at hc
      cases hparent : parent with
      | nil =>
          rw [hparent, List.getLast?_singleton, Option.some.injEq] at hc
          rw [← hc]
          exact inked_dot
      | cons d s =>
          rw [hparent, List.getLast?_cons_cons] at hc
          refine h.trimmed.last c ?_
          rw [hparent]
          exact hc
  rw [Unicode.strip_of_trimmed htrimmed, Unicode.lower_of_settled h.settled]

theorem firstLabel_name (h : Parted label parent) :
    firstLabel (label ++ dot :: parent) = label := by
  rw [firstLabel, lower_strip_name h, List.splitOn_append_cons_self_of_not_mem h.dotless]
  rfl

/-- The parent that is taken out of a name is the one it was put below. -/
theorem parentOf_name (h : Parted label parent) : parentOf (label ++ dot :: parent) = parent := by
  rw [parentOf, lower_strip_name h, List.splitOn_append_cons_self_of_not_mem h.dotless]
  exact joinDots_splitOn parent

end Parts

/-- A label is put below a parent that was read as a text. -/
theorem parted_clean {label : PyStr} (raw : PyStr) (hne : label ≠ []) (hdot : dot ∉ label)
    (hsettled : ∀ c ∈ label, Unicode.Settled c) (hspace : 32 ∉ label)
    (hhead : ∀ c, label.head? = some c → Unicode.isSpace c = false) :
    Parted label (clean raw) where
  nonempty := hne
  dotless := hdot
  settled := by
    intro c hc
    rcases List.mem_append.mp hc with hc | hc
    · exact hsettled c hc
    · rcases List.mem_cons.mp hc with hc | hc
      · rw [hc]
        exact settled_dot
      · exact settled_clean raw c hc
  spaceless := by
    rw [List.mem_append, List.mem_cons, not_or, not_or]
    exact ⟨hspace, by decide, space_not_mem_clean raw⟩
  head := hhead
  trimmed := trimmed_clean raw

theorem clean_rootName : clean rootName = rootName := by decide +kernel

/-- The names that are asked for are a label below a parent. -/
theorem Cmd.Asks.parted {cmd : Cmd} {m : Minting} (h : cmd.Asks m) :
    ∃ label, m.name = label ++ dot :: m.parent ∧ Parted label m.parent := by
  cases cmd with
  | createSub l owner wait =>
      rcases h with ⟨_, hparent, hne, hdot, hname⟩
      refine ⟨clean l, hname, ?_⟩
      rw [hparent, ← clean_rootName]
      exact parted_clean rootName hne hdot (settled_clean l) (space_not_mem_clean l)
        (trimmed_clean l).head
  | createNested parent labelsRaw owner wait =>
      rcases h with ⟨_, hparent, _, label, hlabel, hname⟩
      have hl := isLabel_of_mem hlabel
      refine ⟨label, hname, ?_⟩
      rw [hparent]
      exact parted_clean parent hl.nonempty hl.dotless hl.settled hl.spaceless hl.head

/-- The registry named the signer as the owner of the node in the data. -/
theorem Granted.authorised {P : Packages} {c : Call} {m : Minting} (h : Granted P c m) :
    ∃ node data rest, P.namehashBytes m.parent = .ok node ∧
      (∃ owner, c.chain.owner node = .ok owner ∧ lower owner = lower c.chain.signer) ∧
      c.chain.send m.name data = .ok m.hash ∧ data = P.selector ++ (node ++ rest) := by
  rcases h.asked.parted with ⟨label, hname, hparted⟩
  rcases h.owned with ⟨owner, hread, howner⟩
  rcases bind_eq_ok.mp hread with ⟨node, hnode, hown⟩
  rcases h.sent with ⟨_, data, _, hdata, hsend⟩
  rcases calldata_eq_ok hdata with ⟨_, parentNode, labelH, rest, hparent, _, heq⟩
  -- The parent of the whole name is the parent that was checked.
  rw [hname, parentOf_name hparted, hnode, Except.ok.injEq] at hparent
  rw [← hparent] at heq
  exact ⟨node, data, labelH ++ rest, hnode, ⟨owner, hown, howner⟩, hsend, heq⟩

/-! ## Names without surrogates -/

/-- The text has no surrogates. -/
def Encodable (s : PyStr) : Prop := ∀ c ∈ s, isSurrogate c = false

theorem encodable_of_any {s : PyStr} (h : s.any isSurrogate = false) : Encodable s :=
  fun c hc => Bool.eq_false_iff.mpr (List.any_eq_false.mp h c hc)

theorem encodable_of_encode {s : PyStr} {b : Bytes} (h : encode s = .ok b) : Encodable s := by
  unfold encode at h
  split at h
  · simp only [reduceCtorEq] at h
  · rename_i hs
    exact encodable_of_any (Bool.eq_false_iff.mpr hs)

theorem joined_of_encodable {s : PyStr} (h : Encodable s) : Json.Joined s := by
  unfold Json.Joined
  induction s with
  | nil => exact List.isChain_nil
  | cons c s ih =>
      have hc := h c (List.mem_cons_self ..)
      have hhigh : Json.isHigh c = false := by
        simp only [isSurrogate, Json.isHigh, decide_eq_false_iff_not] at hc ⊢
        omega
      have hrest : Encodable s := fun d hd => h d (List.mem_cons_of_mem _ hd)
      refine List.isChain_cons.mpr ⟨fun d _ hpair => ?_, ih hrest⟩
      rw [hhigh] at hpair
      exact Bool.false_ne_true hpair.1

theorem not_space_of_isSurrogate {c : CodePoint} (h : isSurrogate c = true) :
    Unicode.isSpace c = false := by
  simp only [isSurrogate, decide_eq_true_eq] at h
  simp only [Unicode.isSpace, Unicode.within, Unicode.spaceRanges, List.any_cons, List.any_nil,
    Bool.or_false, Bool.or_eq_false_iff, Bool.and_eq_false_iff, decide_eq_false_iff_not]
  omega

/-- What is not whitespace is not trimmed. -/
theorem mem_strip {s : PyStr} {c : CodePoint} (hc : c ∈ s) (h : Unicode.isSpace c = false) :
    c ∈ Unicode.strip s := by
  have hdrop : ∀ t : PyStr, c ∈ t → c ∈ t.dropWhile Unicode.isSpace := by
    intro t ht
    rw [← List.takeWhile_append_dropWhile (p := Unicode.isSpace) (l := t)] at ht
    rcases List.mem_append.mp ht with htake | hdrop
    · have hspace := List.mem_takeWhile_imp htake
      rw [h] at hspace
      exact absurd hspace Bool.false_ne_true
    · exact hdrop
  rw [Unicode.strip, List.rdropWhile, List.mem_reverse]
  exact hdrop _ (List.mem_reverse.mpr (hdrop s hc))

/-- Reading a text in lower case loses none of its surrogates. -/
theorem encodable_of_clean {s : PyStr} (hsettled : ∀ c ∈ s, Unicode.Settled c)
    (h : Encodable (clean s)) : Encodable s := by
  intro c hc
  by_contra hsurr
  rw [Bool.not_eq_false] at hsurr
  have hstrip : c ∈ Unicode.strip s := mem_strip hc (not_space_of_isSurrogate hsurr)
  have hlower : lower (Unicode.strip s) = Unicode.strip s :=
    Unicode.lower_of_settled (fun d hd => hsettled d (mem_of_mem_strip hd))
  have hne : c ≠ 32 := by
    rintro rfl
    exact absurd hsurr (by decide)
  have hmem : c ∈ clean s := by
    rw [clean, hlower]
    exact List.mem_filter.mpr ⟨hstrip, decide_eq_true hne⟩
  rw [h c hmem] at hsurr
  exact Bool.false_ne_true hsurr

/-- The normaliser accepts no text with surrogates. -/
def Strict (ens : PyStr → Option PyStr) : Prop := ∀ s n, ens s = some n → s.any isSurrogate = false

section Clear

variable {P : Packages}

/-- A part of a name with a normal form that can be encoded has no surrogates. -/
theorem encodable_of_normName (hP : Strict P.ensNormalize) {s : PyStr}
    (hsettled : ∀ c ∈ s, Unicode.Settled c)
    (h : P.ensNormalize (clean s) = none → Encodable (clean s)) : Encodable s := by
  refine encodable_of_clean hsettled ?_
  cases hens : P.ensNormalize (clean s) with
  | none => exact h hens
  | some n => exact encodable_of_any (hP _ n hens)

/-- A text with a node has no surrogates. -/
theorem encodable_of_namehash (hP : Strict P.ensNormalize) {s : PyStr} {node : Bytes}
    (hsettled : ∀ c ∈ s, Unicode.Settled c) (h : P.namehashBytes s = .ok node) :
    Encodable s := by
  refine encodable_of_normName hP hsettled (fun hens => ?_)
  have hnorm := normName_of_none hens
  have hlabels := (namehashBytes_eq_ok.mp h).1
  intro c hc
  by_cases hblank : s = [] ∨ P.normName s = []
  · rw [← hnorm] at hc
    rcases hblank with hs | hs
    · rw [hs] at hnorm hc
      rw [hnorm] at hc
      exact absurd hc List.not_mem_nil
    · rw [hs] at hc
      exact absurd hc List.not_mem_nil
  · rw [Packages.labelsOf, if_neg hblank, hnorm] at hlabels
    rw [← joinDots_splitOn (clean s)] at hc
    -- A character is a dot or in one of the labels, which are encoded one by one.
    rcases mem_joinDots hc with hdot | ⟨l, hl, hcl⟩
    · rw [hdot]
      decide
    · exact encodable_of_encode (hlabels l hl) c hcl

/-- What was minted is written as it is. -/
theorem Granted.clear (hP : Strict P.ensNormalize) {c : Call} {m : Minting}
    (hhash : ∀ name data h, c.chain.send name data = .ok h → h.any isSurrogate = false)
    (h : Granted P c m) : m.Clear := by
  rcases h.asked.parted with ⟨label, hname, hparted⟩
  rcases h.sent with ⟨_, data, _, hdata, hsend⟩
  rcases calldata_eq_ok hdata with ⟨_, parentNode, labelH, _, hparent, hlabel, _⟩
  rw [hname, parentOf_name hparted] at hparent
  rw [hname, firstLabel_name hparted] at hlabel
  have hparentText : Encodable m.parent := encodable_of_namehash hP
    (fun d hd => hparted.settled d (List.mem_append_right _ (List.mem_cons_of_mem _ hd))) hparent
  have hlabelText : Encodable label := by
    refine encodable_of_normName hP (fun d hd => hparted.settled d (List.mem_append_left _ hd))
      (fun hens => ?_)
    rw [← normName_of_none hens]
    exact encodable_of_encode (of_labelhashBytes_eq_ok hlabel).1
  refine ⟨joined_of_encodable hparentText, joined_of_encodable ?_,
    joined_of_encodable (encodable_of_any (hhash _ _ _ hsend))⟩
  rw [hname]
  intro d hd
  rcases List.mem_append.mp hd with hd | hd
  · exact hlabelText d hd
  · rcases List.mem_cons.mp hd with hd | hd
    · rw [hd]
      decide
    · exact hparentText d hd

end Clear

/-! ## Every sequence of commands -/

section Runs

variable (F : ℚ → Json.FloatText) {P : Packages} (hP : Strict P.ensNormalize) (calls : List Call)
  (hhash : ∀ c ∈ calls, ∀ name data h, c.chain.send name data = .ok h → h.any isSurrogate = false)
  {file : Option PyStr} (hfile : loadState file = .ok defaultState)

include hP hhash hfile

/-- The file holds the names that the commands were granted, and a sequence of commands
    that was granted nothing leaves it as it was. -/
theorem file_holds_history :
    loadState (calls.foldl (Call.file F P) file) = .ok (stateOf (history P calls)) ∧
      (history P calls = [] → calls.foldl (Call.file F P) file = file) := by
  have hclear : ∀ c ∈ calls, ∀ m ∈ c.granted P, m.Clear :=
    fun c hc m hm => (mem_granted.mp hm).clear hP (hhash c hc)
  have hnone : ∀ m ∈ ([] : List Minting), m.Clear := fun m hm => absurd hm List.not_mem_nil
  have hrun := loadState_run F P calls hclear hnone hfile
  rw [List.append_nil] at hrun
  exact hrun

/-- Every entry of the log was granted to a command, and the transaction that it names
    was built for a node whose owner was the signer; and nothing that was granted is
    missing. -/
theorem logged_iff_granted :
    ∃ st log, loadState (calls.foldl (Call.file F P) file) = .ok st ∧
      get st (lit "txLog") = .list log ∧
      (∀ v ∈ log, ∃ c ∈ calls, ∃ m, v = m.entry ∧ Granted P c m ∧
        ∃ node data rest, P.namehashBytes m.parent = .ok node ∧
          (∃ owner, c.chain.owner node = .ok owner ∧ lower owner = lower c.chain.signer) ∧
          c.chain.send m.name data = .ok m.hash ∧ data = P.selector ++ (node ++ rest)) ∧
      ∀ c ∈ calls, ∀ m, Granted P c m → m.entry ∈ log := by
  have hclear : ∀ c ∈ calls, ∀ m ∈ c.granted P, m.Clear :=
    fun c hc m hm => (mem_granted.mp hm).clear hP (hhash c hc)
  have hnone : ∀ m ∈ ([] : List Minting), m.Clear := fun m hm => absurd hm List.not_mem_nil
  have hrun := (loadState_run F P calls hclear hnone hfile).1
  rw [List.append_nil] at hrun
  refine ⟨_, (history P calls).map Minting.entry, hrun, rfl, fun v hv => ?_, fun c hc m hm => ?_⟩
  · rcases List.mem_map.mp hv with ⟨m, hm, hv⟩
    rw [history, List.mem_reverse, List.mem_flatMap] at hm
    rcases hm with ⟨c, hc, hm⟩
    have hgranted := mem_granted.mp hm
    exact ⟨c, hc, m, hv.symm, hgranted, hgranted.authorised⟩
  · refine List.mem_map_of_mem ?_
    rw [history, List.mem_reverse, List.mem_flatMap]
    exact ⟨c, hc, mem_granted.mpr hm⟩

end Runs

/-! ## A family -/

namespace Kids

theorem strict : Strict Ascii.packages.ensNormalize := by
  intro s n h
  have halpha : ∀ c, Ascii.isAlphanumeric c = true → isSurrogate c = false := by
    intro c hc
    simp only [Ascii.isAlphanumeric, Bool.or_eq_true, Bool.and_eq_true, decide_eq_true_eq] at hc
    simp only [isSurrogate, decide_eq_false_iff_not]
    omega
  by_cases hs : s = []
  · rw [hs]
    rfl
  · -- Every label that is accepted has letters and digits only.
    rw [Ascii.labelWise.name s hs, Option.map_eq_some_iff] at h
    rcases h with ⟨ns, hns, _⟩
    have hlabels : ∀ (xs : List PyStr) (ns : List PyStr), xs.mapM Ascii.normalizeLabel = some ns →
        ∀ x ∈ xs, Encodable x := by
      intro xs
      induction xs with
      | nil => exact fun _ _ x hx => absurd hx List.not_mem_nil
      | cons x xs ih =>
          intro ns hns
          rw [List.mapM_cons] at hns
          rcases Option.bind_eq_some_iff.mp hns with ⟨n, hn, hns⟩
          rcases Option.bind_eq_some_iff.mp hns with ⟨rest, hrest, _⟩
          refine List.forall_mem_cons.mpr ⟨fun c hc => halpha c ?_, ih rest hrest⟩
          unfold Ascii.normalizeLabel at hn
          split at hn
          · rename_i hall
            exact List.all_eq_true.mp hall.2 c hc
          · simp only [reduceCtorEq] at hn
    rw [List.any_eq_false]
    intro c hc
    rw [← joinDots_splitOn s] at hc
    rw [Bool.not_eq_true]
    rcases mem_joinDots hc with hdot | ⟨x, hx, hcx⟩
    · rw [hdot]
      decide
    · exact hlabels _ ns hns x hx c hcx

/-- The signer owns every name, and every transaction is taken and mined. -/
def chain : Chain where
  signer := Goat.owner
  owner := fun _ => .ok Goat.owner
  resolver := fun _ => .ok Goat.owner
  isAddress := fun _ => true
  toChecksumAddress := .ok
  send := fun _ _ => .ok (lit "0xfeed")
  receipt := fun _ => .ok (some 1)

/-- A goat with two kids, one of which is minted twice. -/
def calls : List Call :=
  [⟨chain, .createSub (lit " Goat") none true⟩,
   ⟨chain, .createNested (lit "goat.axl.eth") (lit "kid, twin") none true⟩,
   ⟨chain, .createNested (lit "goat.axl.eth") (lit "kid") none false⟩]

theorem hashes_encodable : ∀ c ∈ calls, ∀ name data h, c.chain.send name data = .ok h →
    h.any isSurrogate = false := by
  have hsend : ∀ name data h, chain.send name data = .ok h → h.any isSurrogate = false := by
    intro name data h hh
    rw [← Except.ok.inj hh]
    exact lit_encodable _
  rw [calls, List.forall_mem_cons, List.forall_mem_cons, List.forall_mem_cons]
  exact ⟨hsend, hsend, hsend, fun c hc => absurd hc List.not_mem_nil⟩

theorem loadState_none : loadState none = .ok defaultState := rfl

theorem kids_held :
    loadState (calls.foldl (Call.file Json.positional Ascii.packages) none) =
        .ok (stateOf (history Ascii.packages calls)) ∧
      subnames (history Ascii.packages calls) = [lit "goat.axl.eth"] ∧
      nestedSubnames (history Ascii.packages calls) =
        [(lit "goat.axl.eth", [lit "kid.goat.axl.eth", lit "twin.goat.axl.eth"])] :=
  ⟨(file_holds_history Json.positional strict calls hashes_encodable loadState_none).1,
    by decide +kernel, by decide +kernel⟩

theorem kids_logged :
    ∃ st log, loadState (calls.foldl (Call.file Json.positional Ascii.packages) none) = .ok st ∧
      get st (lit "txLog") = .list log ∧
      logEntry (lit "nested") (lit "twin.goat.axl.eth") (lit "0xfeed") ∈ log := by
  rcases logged_iff_granted Json.positional strict calls hashes_encodable loadState_none
    with ⟨st, log, hload, hlog, _, hall⟩
  let twin : Minting :=
    ⟨.nested, lit "goat.axl.eth", lit "twin.goat.axl.eth", lit "0xfeed"⟩
  have hcall : (⟨chain, .createNested (lit "goat.axl.eth") (lit "kid, twin") none true⟩ : Call) ∈
      calls := List.mem_cons_of_mem _ (List.mem_cons_self ..)
  exact ⟨st, log, hload, hlog, hall _ hcall twin (mem_granted.mp (by decide +kernel))⟩

end Kids

end Pyens

end WhisperNet
