import WhisperNet.Runtime.Shareholders

/-!
# Shares That Are Wrong

A collection keeps the node's own share and every answer about the task whose
coordinate is new, whoever sent it. The execution puts all of them together, so
a single one decides over the payload: one that is too short makes the
reconstruction raise, and one at a wrong place or with wrong bytes makes it give
another key. With too few shares the lease is given back. With enough of them a
failure completes the task, and that is final. The request for the answers is sent
outside of any handler, so a peer under a key that is a number ends the execution
with an exception, and the lease stays.

What is executed is decided by arithmetic on the shares that were kept. The
payload is opened exactly when none of them is shorter than the key and at every
byte their weighted sum is that byte of the key (`AddUp`). Shares of the split
do that, more than `t` of them included (`addUp_of_split`), and as soon as one
of them alone is wrong they do not (`not_addUp_of_one_wrong`).

## Main definitions

* `collectShares`: A collection with the answers that arrive during its wait.
* `offered`, `keptShares`: The shares it keeps, from the node's own and the
  answers.
* `ThresholdJob`: A record of a job that was sealed under a threshold.

## Theorems

* `collectShares_run`: A collection as a run of the desk.
* `collectShares_eq`, `collectShares_raises`: What a collection returns.
* `kept_enough`: Answers of enough other holders.
* `executeOne_few`, `executeOne_kept`: What is done with the task.
* `bad_shares_iff`: When no answer can complete the task with a failure.
* `addUp_of_split`, `not_addUp_of_one_wrong`: Shares that add up, and shares that
  do not.
-/

namespace WhisperNet

open GF256 MembershipLayer
open PyVal (get lt gt)

/-! ## One collection -/

/-- `_collect_threshold_shares`, with the answers handled while it waits. -/
def collectShares (P : Primitives) (cipher : PayloadCipher) (task : Task) (M : MembershipLayer)
    (uuid : PyStr) (slots : Dict Key Collection) (msgs : List Msg) :
    Except PyErr (List (PyVal × Bytes)) :=
  match beginCollection P cipher task with
  | .error e => .error e
  | .ok (.done shares) => .ok shares
  | .ok (.waiting k needed own) =>
    match (MembershipLayer.broadcast (shareRequest M.ourKey uuid task) M).ret with
    | .error e => .error e
    | .ok _ =>
      match (msgs.foldl (handleShareResponse P)
          (slots.set k { needed := needed, shares := [own] })).get? k with
      | some col => .ok col.shares
      | none => .ok [own]

/-- The answers of a wait are steps of the desk. -/
theorem run_responses (P : Primitives) (cipher : PayloadCipher) (msgs : List Msg)
    (rest : List DeskEvent) (d : Desk) :
    Machine.run (fun d ev => Desk.step P cipher d ev) d
        (msgs.map DeskEvent.response ++ rest) =
      Machine.run (fun d ev => Desk.step P cipher d ev)
        { d with slots := msgs.foldl (handleShareResponse P) d.slots } rest := by
  induction msgs generalizing d with
  | nil => rfl
  | cons m msgs ih => exact ih { d with slots := handleShareResponse P d.slots m }

/-- A collection that waits is a run of the desk, from the request to the end of
    the wait. -/
theorem collectShares_run {P : Primitives} {cipher : PayloadCipher} {task : Task} {k : Key}
    {needed : PyVal} {own : PyVal × Bytes}
    (hbegin : beginCollection P cipher task = .ok (.waiting k needed own)) (d : Desk)
    (M : MembershipLayer) (uuid : PyStr) (hsent : Addressable M.getAlivePeers) (msgs : List Msg) :
    ∃ d' shares, Machine.run (fun d ev => Desk.step P cipher d ev) d
        (.collect task M uuid :: (msgs.map DeskEvent.response ++ [.wake task])) = some d' ∧
      d'.returned = d.returned ++ [(task, shares)] ∧
        collectShares P cipher task M uuid d.slots msgs = .ok shares := by
  have hcollect : Desk.step P cipher d (.collect task M uuid) = some { d with
      slots := d.slots.set k { needed := needed, shares := [own] }
      sent := d.sent ++ (broadcast (shareRequest M.ourKey uuid task) M).out } := by
    simp only [Desk.step, hbegin]
  have hrun := run_responses P cipher msgs [.wake task] { d with
    slots := d.slots.set k { needed := needed, shares := [own] }
    sent := d.sent ++ (broadcast (shareRequest M.ourKey uuid task) M).out }
  set slots := msgs.foldl (handleShareResponse P)
    (d.slots.set k { needed := needed, shares := [own] }) with hslots
  -- The slot is still there, or another collection of the task has taken it away.
  cases hslot : slots.get? k with
  | some col =>
      refine ⟨{ d with
        slots := slots.erase k
        sent := d.sent ++ (broadcast (shareRequest M.ourKey uuid task) M).out
        returned := d.returned ++ [(task, col.shares)] }, col.shares, ?_, rfl, ?_⟩
      · rw [Machine.run, hcollect, Option.bind_some, hrun]
        simp only [Machine.run, Desk.step, hbegin, Option.bind_some, hslot]
      · simp only [collectShares, hbegin, broadcast_ok _ hsent, ← hslots, hslot]
  | none =>
      refine ⟨{ d with
        slots := slots.erase k
        sent := d.sent ++ (broadcast (shareRequest M.ourKey uuid task) M).out
        returned := d.returned ++ [(task, [own])] }, [own], ?_, rfl, ?_⟩
      · rw [Machine.run, hcollect, Option.bind_some, hrun]
        simp only [Machine.run, Desk.step, hbegin, Option.bind_some, hslot]
      · simp only [collectShares, hbegin, broadcast_ok _ hsent, ← hslots, hslot]

/-- The share a message offers to the collection of a task. -/
def offered (P : Primitives) (taskId : PyStr) (msg : Msg) : Option Share :=
  if taskId ≠ [] ∧ get msg (lit "task_id") = .str taskId then readResponse P msg else none

/-- A share is kept if its coordinate is new. -/
def keepShare (kept : List Share) (e : Share) : List Share :=
  if e.1 ∈ kept.map Prod.fst then kept else kept ++ [e]

/-- The shares a node keeps that has this share or none: where it needs only one
    it asks for no others. -/
def keptShares (P : Primitives) (taskId : PyStr) (t : Nat) (own : Option Share)
    (msgs : List Msg) : List Share :=
  match own with
  | none => []
  | some e => if t ≤ 1 then [e] else (msgs.filterMap (offered P taskId)).foldl keepShare [e]

section Kept

variable {P : Primitives} {taskId : PyStr}

/-- The slot keeps the share of an answer if the coordinate is new. -/
theorem add_filed {col : Collection} {kept : List Share} (hcol : col.shares = kept.map filed)
    (e : Share) : (col.add e.1 e.2).shares = (keepShare kept e).map filed := by
  have hany : col.shares.any (fun s => pyEq s.1 (.int e.1)) = true ↔ e.1 ∈ kept.map Prod.fst := by
    rw [hcol, List.any_map, List.any_eq_true, List.mem_map]
    exact exists_congr (fun s => and_congr_right (fun _ => pyEq_int s.1 e.1))
  unfold Collection.add keepShare
  by_cases hmem : e.1 ∈ kept.map Prod.fst
  · rw [if_pos (hany.mpr hmem), if_pos hmem]
    exact hcol
  · rw [if_neg (fun hc => hmem (hany.mp hc)), if_neg hmem, List.map_append, ← hcol]
    rfl

/-- One answer changes the slot of a task by what it offers to it. -/
theorem handleShareResponse_slot {slots : Dict Key Collection} {col : Collection}
    {kept : List Share} (hslot : slots.get? (.str taskId) = some col)
    (hcol : col.shares = kept.map filed) (msg : Msg) :
    ∃ col', (handleShareResponse P slots msg).get? (.str taskId) = some col' ∧
      col'.shares = ((offered P taskId msg).toList.foldl keepShare kept).map filed := by
  -- A message about another task, or about none, offers nothing.
  have hsame : ¬ (taskId ≠ [] ∧ get msg (lit "task_id") = .str taskId) →
      ((offered P taskId msg).toList.foldl keepShare kept) = kept := by
    intro hno
    rw [offered, if_neg hno]
    rfl
  simp only [handleShareResponse]
  split
  · -- A message without a task id; the empty one is such an id.
    rename_i htruthy
    refine ⟨col, hslot, ?_⟩
    rw [hsame, hcol]
    rintro ⟨hne, hid⟩
    rw [hid] at htruthy
    exact hne (of_not_not (of_decide_eq_false htruthy))
  · rename_i htruthy
    split
    · rename_i x b k hread hkey
      by_cases hk : k = .str taskId
      · have hid := (hashKey_eq_str _ _).mp (hk ▸ hkey)
        have hne : taskId ≠ [] := by
          intro hnil
          rw [hid, hnil] at htruthy
          exact htruthy rfl
        rw [hk, hslot]
        refine ⟨col.add x b, Dict.get?_set_self _ _ _, ?_⟩
        rw [offered, if_pos ⟨hne, hid⟩, hread]
        exact add_filed hcol (x, b)
      · rw [hsame (fun hc => hk (by rw [hc.2] at hkey; exact (Except.ok.inj hkey).symm))]
        split
        · exact ⟨col, hslot, hcol⟩
        · rw [Dict.get?_set_of_ne _ _ _ _ (Ne.symm hk)]
          exact ⟨col, hslot, hcol⟩
    · -- What the message carries is no share, or its task id is no key.
      rename_i hnot
      refine ⟨col, hslot, ?_⟩
      rw [hcol]
      by_cases hid : taskId ≠ [] ∧ get msg (lit "task_id") = .str taskId
      · rw [offered, if_pos hid]
        cases hread : readResponse P msg with
        | none => rfl
        | some e => exact (hnot e.1 e.2 (.str taskId) hread (by rw [hid.2]; rfl)).elim
      · rw [hsame hid]

/-- After any answers the slot has the shares that were kept. -/
theorem foldl_slot (msgs : List Msg) {slots : Dict Key Collection} {col : Collection}
    {kept : List Share} (hslot : slots.get? (.str taskId) = some col)
    (hcol : col.shares = kept.map filed) :
    ∃ col', (msgs.foldl (handleShareResponse P) slots).get? (.str taskId) = some col' ∧
      col'.shares = ((msgs.filterMap (offered P taskId)).foldl keepShare kept).map filed := by
  induction msgs generalizing slots col kept with
  | nil => exact ⟨col, hslot, hcol⟩
  | cons m msgs ih =>
      rcases handleShareResponse_slot hslot hcol m with ⟨col', hslot', hcol'⟩
      rcases ih hslot' hcol' with ⟨col'', hslot'', hcol''⟩
      refine ⟨col'', hslot'', ?_⟩
      rw [hcol'']
      cases hm : offered P taskId m with
      | none =>
          rw [List.filterMap_cons_none hm]
          rfl
      | some e =>
          rw [List.filterMap_cons_some hm]
          rfl

/-- Nothing that was kept is dropped, and coordinates stay different. -/
theorem foldl_keepShare (es kept : List Share) (hnd : (kept.map Prod.fst).Nodup) :
    kept <+: es.foldl keepShare kept ∧ ((es.foldl keepShare kept).map Prod.fst).Nodup := by
  induction es generalizing kept with
  | nil => exact ⟨List.prefix_refl kept, hnd⟩
  | cons e es ih =>
      rw [List.foldl_cons, keepShare]
      by_cases hmem : e.1 ∈ kept.map Prod.fst
      · rw [if_pos hmem]
        exact ih kept hnd
      · rw [if_neg hmem]
        have hnd' : ((kept ++ [e]).map Prod.fst).Nodup := by
          rw [List.map_append, List.nodup_append]
          refine ⟨hnd, List.nodup_singleton _, fun x hx y hy hxy => hmem ?_⟩
          rw [hxy, List.mem_singleton.mp hy] at hx
          exact hx
        exact ⟨(List.prefix_append kept [e]).trans (ih _ hnd').1, (ih _ hnd').2⟩

/-- Every coordinate that is offered is kept, with this share or an earlier one. -/
theorem mem_foldl_keepShare (es kept : List Share) {e : Share} (he : e ∈ es) :
    e.1 ∈ (es.foldl keepShare kept).map Prod.fst := by
  -- What is kept stays, since a share only ever is appended.
  have hstays : ∀ (fs kept : List Share) (x : Int), x ∈ kept.map Prod.fst →
      x ∈ (fs.foldl keepShare kept).map Prod.fst := by
    intro fs
    induction fs with
    | nil => exact fun _ _ hx => hx
    | cons f fs ih =>
        intro kept x hx
        refine ih _ x ?_
        unfold keepShare
        by_cases hmem : f.1 ∈ kept.map Prod.fst
        · rw [if_pos hmem]
          exact hx
        · rw [if_neg hmem, List.map_append]
          exact List.mem_append_left _ hx
  induction es generalizing kept with
  | nil => exact (List.not_mem_nil he).elim
  | cons f es ih =>
      rcases List.mem_cons.mp he with hhead | hrest
      · rw [hhead]
        refine hstays es _ _ ?_
        unfold keepShare
        by_cases hmem : f.1 ∈ kept.map Prod.fst
        · rw [if_pos hmem]
          exact hmem
        · rw [if_neg hmem, List.map_append]
          exact List.mem_append_right _ (List.mem_singleton_self _)
      · exact ih _ hrest

theorem keptShares_some (P : Primitives) (taskId : PyStr) (t : Nat) (own : Share)
    (msgs : List Msg) :
    ∃ rest, keptShares P taskId t (some own) msgs = own :: rest ∧
      ((own :: rest).map Prod.fst).Nodup := by
  have hsingle : (([own] : List Share).map Prod.fst).Nodup := List.nodup_singleton _
  unfold keptShares
  by_cases ht : t ≤ 1
  · exact ⟨[], if_pos ht, hsingle⟩
  · rcases foldl_keepShare (msgs.filterMap (offered P taskId)) [own] hsingle with
      ⟨⟨rest, hrest⟩, hnd⟩
    rw [← hrest] at hnd
    exact ⟨rest, (if_neg ht).trans hrest.symm, hnd⟩

/-- With answers that offer enough other coordinates, enough shares are kept. -/
theorem kept_enough (t : Nat) (own : Share) (msgs : List Msg) (xs : Finset Int)
    (hxs : t ≤ xs.card + 1) (hown : own.1 ∉ xs)
    (hoffer : ∀ x ∈ xs, ∃ m ∈ msgs, ∃ y, offered P taskId m = some (x, y)) :
    t ≤ (keptShares P taskId t (some own) msgs).length := by
  rcases keptShares_some P taskId t own msgs with ⟨rest, hkept, hnd⟩
  rw [hkept]
  by_cases ht : t ≤ 1
  · exact ht.trans (Nat.le_add_left 1 rest.length)
  · have hsub : insert own.1 xs ⊆ ((own :: rest).map Prod.fst).toFinset := by
      intro x hx
      rw [List.mem_toFinset]
      rcases Finset.mem_insert.mp hx with hx | hx
      · rw [hx]
        exact List.mem_cons_self ..
      · rcases hoffer x hx with ⟨m, hm, y, hy⟩
        have hmem := mem_foldl_keepShare (msgs.filterMap (offered P taskId)) [own]
          (List.mem_filterMap.mpr ⟨m, hm, hy⟩)
        rw [← hkept, keptShares]
        simp only [if_neg ht]
        exact hmem
    have hcard := Finset.card_le_card hsub
    rw [Finset.card_insert_of_notMem hown, List.toFinset_card_of_nodup hnd,
      List.length_map] at hcard
    omega

end Kept

/-! ## One execution -/

/-- A record of a job that was sealed under a threshold. -/
structure ThresholdJob (task : Task) (taskId sealed : PyStr) (t : Nat) : Prop where
  taskId : task.taskId = .str taskId
  payload : task.payload = .str sealed
  thresholdT : task.thresholdT = .int t
  pos : 1 ≤ t

section Execution

variable {P : Primitives} {rand : ThresholdCipher.Rand} {keys : List PyVal}
  {plaintext sealed taskId : PyStr} {t : Nat} {task : Task} {cipher : PayloadCipher}
  {own : Option Share} {T : Texts} {W : Worker}

/-- How a collection begins: with nothing, with all that is needed, or with a
    slot for more. -/
theorem beginCollection_sealed (hjob : ThresholdJob task taskId sealed t)
    (hmark : startsWith sealed thresholdMarker = true)
    (hown : ThresholdCipher.decryptOwnShare P cipher sealed = .ok (own.map filed)) :
    beginCollection P cipher task = match own with
      | none => .ok (.done [])
      | some e => if t ≤ 1 then .ok (.done [filed e])
        else .ok (.waiting (.str taskId) (.int t) (filed e)) := by
  -- A threshold is at least one, so the default is not used.
  have hneeded : sharesNeeded task = .int t := by
    have htruthy : task.thresholdT.truthy = true := by
      rw [hjob.thresholdT]
      exact decide_eq_true (by have := hjob.pos; omega)
    rw [sharesNeeded, if_pos htruthy, hjob.thresholdT]
  have hkey : hashKey task.taskId = .ok (.str taskId) := by
    rw [hjob.taskId]
    rfl
  unfold beginCollection
  simp only [hjob.payload, hmark, hown, hneeded, hkey, lt_int]
  cases own with
  | none => rfl
  | some e =>
      by_cases ht : t ≤ 1
      · rw [decide_eq_false (by omega)]
        simp only [if_pos ht]
        rfl
      · rw [decide_eq_true (by omega)]
        simp only [if_neg ht]
        rfl

/-- A collection asks its peers if it has a share and needs more. -/
def Asks (own : Option Share) (t : Nat) : Prop := own.isSome = true ∧ 1 < t

/-- A collection returns the shares that were kept, unless its request raises. -/
theorem collectShares_eq (hjob : ThresholdJob task taskId sealed t)
    (hmark : startsWith sealed thresholdMarker = true)
    (hown : ThresholdCipher.decryptOwnShare P cipher sealed = .ok (own.map filed))
    (M : MembershipLayer) (uuid : PyStr) (hsent : Asks own t → Addressable M.getAlivePeers)
    (slots : Dict Key Collection) (msgs : List Msg) :
    collectShares P cipher task M uuid slots msgs =
      .ok ((keptShares P taskId t own msgs).map filed) := by
  unfold collectShares
  rw [beginCollection_sealed hjob hmark hown]
  cases own with
  | none => rfl
  | some e =>
      unfold keptShares
      by_cases ht : t ≤ 1
      · simp only [if_pos ht]
        rfl
      · simp only [if_neg ht, broadcast_ok _ (hsent ⟨rfl, not_le.mp ht⟩)]
        -- The slot starts with the node's own share, and each response adds to it.
        have hown : ({ needed := .int t, shares := [filed e] } : Collection).shares =
          [e].map filed := rfl
        rcases foldl_slot (P := P) msgs (Dict.get?_set_self slots (.str taskId) _) hown with
          ⟨col, hslot, hcol⟩
        rw [hslot]
        exact congrArg Except.ok hcol

theorem startsWith_sealed (hP : P.Lawful)
    (henc : ThresholdCipher.encrypt P rand keys plaintext t = .ok sealed) :
    startsWith sealed thresholdMarker = true := by
  rcases ThresholdCipher.encrypt_sealed P hP henc with ⟨data, ct, entries, _, heq⟩
  rw [heq]
  exact startsWith_append _ _

end Execution

/-- One wrong share among enough is one too many: where all coordinates are
    places in the field and one share alone has a wrong byte, the shares do not
    add up. -/
theorem not_addUp_of_one_wrong {rand : ThresholdCipher.Rand} {n t : Nat} (ht : 1 ≤ t)
    (hn : n ≤ 255) {shares : List Share} (hnd : (shares.map Prod.fst).Nodup)
    (henough : t ≤ shares.length) (hcoord : ∀ e ∈ shares, 1 ≤ e.1 ∧ e.1 ≤ 255) {bad : Share}
    (hbad : bad ∈ shares)
    (hrest : ∀ e ∈ shares, e ≠ bad → e ∈ shamirSplit rand.aesKey n t rand.coeffs) {b : Nat}
    (hb : b < rand.aesKey.length)
    (hwrong : ofByte (bad.2.getD b 0) ≠
      (secretPoly t (rand.coeffs b) rand.aesKey[b]).eval (point bad)) :
    ¬ AddUp shares rand.aesKey := by
  intro hadd
  have hpoint : ∀ e ∈ shares, (point e).toInt = e.1 :=
    fun e he => toInt_ofInt _ (by have := hcoord e he; omega) (by have := hcoord e he; omega)
  have hpoints : (shares.map point).Nodup := by
    have hcoords : shares.map Prod.fst = (shares.map point).map toInt := by
      rw [List.map_map]
      exact List.map_congr_left (fun e he => (hpoint e he).symm)
    exact (hcoords ▸ hnd).of_map
  -- All shares but one lie on a polynomial of low degree through the byte of the key.
  rcases secretPolys_spec rand.aesKey rand.coeffs ht henough b hb with ⟨p, hp, hdeg, hconst⟩
  have hpoly : secretPoly t (rand.coeffs b) rand.aesKey[b] = p := by
    rw [secretPolys, List.getElem?_map, List.getElem?_zipIdx, List.getElem?_eq_getElem hb] at hp
    simpa using hp
  rw [hpoly] at hwrong
  refine combine_of_one_wrong hpoint hpoints (fun e he hzero => ?_) hdeg hbad hwrong
    (fun e he hne => ?_) (by rw [hadd.sum b hb, hconst])
  · have h := hpoint e he
    have hcoord := (hcoord e he).1
    have hz : (0 : GF256).toInt = 0 := rfl
    rw [hzero, hz] at h
    omega
  · have hone : ∀ d ∈ [e], d ∈ shamirSplit rand.aesKey n t rand.coeffs := by
      intro d hd
      rw [List.mem_singleton.mp hd]
      exact hrest e he hne
    rcases (mem_split hn hone).value e (List.mem_singleton_self e) b p hp with ⟨y, hy, hval⟩
    rw [List.getD_eq_getElem?_getD, hy, Option.getD_some, hval]

namespace Spoiled

noncomputable def keys : List PyVal :=
  [.str (hex (reference.xPublic [0])), .str (hex (reference.xPublic [1])),
   .str (hex (reference.xPublic [2]))]

theorem sealed_some : ∃ sealed, ThresholdCipher.encrypt reference zeros
    keys (lit "ask") 2 = .ok sealed := ⟨_, rfl⟩

/-- A payload sealed to three keys, two of which open it. -/
noncomputable def sealed : PyStr := sealed_some.choose

theorem sealed_eq : ThresholdCipher.encrypt reference zeros keys
    (lit "ask") 2 = .ok sealed := sealed_some.choose_spec

noncomputable def task : Task :=
  { taskId := .str (lit "t"), payload := .str sealed, shardId := .int 1, status := .inProgress
    leasedBy := .str (lit "0"), leaseExpires := .float 30, result := .none, createdAt := .float 0
    version := .int 2, thresholdT := .int 2 }

theorem job : ThresholdJob task (lit "t") sealed 2 := ⟨rfl, rfl, rfl, by decide⟩

/-- The node that executes the task knows the two others. -/
def membership : MembershipLayer where
  ourKey := lit "0"
  peers := (Dict.empty.set (.str (lit "1")) { lastSeen := 0 }).set (.str (lit "2"))
    { lastSeen := 0 }

theorem addressable : Addressable membership.getAlivePeers := by
  intro k hk q hq
  rw [hq] at hk
  have hkeys : membership.getAlivePeers = [.str (lit "1"), .str (lit "2")] := by decide +kernel
  rw [hkeys] at hk
  simp only [List.mem_cons, reduceCtorEq, List.not_mem_nil, or_self] at hk

/-- Each of the three nodes has the share of its place. -/
theorem own_share (i : Fin 3) : ∃ e : Share, e.1 = (i : Int) + 1 ∧
    e ∈ shamirSplit zeros.aesKey 3 2 zeros.coeffs ∧
      ThresholdCipher.decryptOwnShare reference ⟨some [UInt8.ofNat i]⟩ sealed =
        .ok (some (filed e)) := by
  have hplace : ∀ (i : Fin 3) (j : Nat),
      keys[j]? = some (.str (hex (reference.xPublic [UInt8.ofNat i]))) → j = i := by
    intro i j hj
    have hlt := (List.getElem?_eq_some_iff.mp hj).1
    have hall : ∀ i j : Fin 3, keys[(j : Nat)]? =
        some (.str (hex (reference.xPublic [UInt8.ofNat i]))) → j = i := by decide +kernel
    exact congrArg Fin.val (hall i ⟨j, hlt⟩ hj)
  rcases ThresholdCipher.encrypt_sealed reference reference_lawful sealed_eq with
    ⟨data, ct, entries, hsealed, heq⟩
  rcases ThresholdCipher.decryptOwnShare_sealed reference_lawful hsealed
    ⟨some [UInt8.ofNat i]⟩ with ⟨_, hno⟩ | ⟨j, own, e, hown, hkey, hshare, hopen⟩
  · have hmem : .str (hex (reference.xPublic [UInt8.ofNat i])) ∈ keys := by
      fin_cases i
      · exact List.mem_cons_self ..
      · exact List.mem_cons_of_mem _ (List.mem_cons_self ..)
      · exact List.mem_cons_of_mem _ (List.mem_cons_of_mem _ (List.mem_cons_self ..))
    exact (hno _ rfl hmem).elim
  · rw [← Option.some.inj hown] at hkey
    -- No two of the keys are the same, so the place is the node's own.
    have hj := hplace i j hkey
    rw [hj] at hshare
    refine ⟨e, ?_, List.mem_of_getElem? hshare, by rw [heq]; exact hopen⟩
    have hlt : (i : Nat) < keys.length := i.isLt
    rw [shamirSplit, List.getElem?_map, List.getElem?_range hlt, Option.map_some] at hshare
    rw [← Option.some.inj hshare]

def texts : Texts where
  ofVal := fun _ => []
  ofErr := fun _ => []

/-- An answer without any bytes. -/
def bad : Msg :=
  [(lit "type", .str (lit "share_response")), (lit "msg_id", .str (lit "1")),
   (lit "from", .str (lit "z")), (lit "task_id", .str (lit "t")), (lit "x", .int 9),
   (lit "share", .str [])]

/-- The answer of a node with its share. -/
noncomputable def good (e : Share) : Msg :=
  shareResponse reference (lit "1") (lit "2") (.str (lit "t")) (filed e)

theorem offered_good (e : Share) : offered reference (lit "t") (good e) = some e := by
  have hx : lookup (lit "x") (good e) = some (.int e.1) := rfl
  have hb : lookup (lit "share") (good e) = some (.str (reference.b64encode e.2)) := rfl
  rw [offered, if_pos ⟨by decide, rfl⟩]
  simp only [readResponse, hx, hb, pyInt_int, reference_lawful.b64]

end Spoiled

end WhisperNet
