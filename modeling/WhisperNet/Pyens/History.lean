import WhisperNet.Lib.Grouping
import WhisperNet.Pyens.Store

/-!
# The File is the History

The file is loaded, changed and written as a dictionary of lists, by commands that
may stop half way. What it is for is a history: the names that were minted, newest
first, each with its transaction. Everything in the file is a function of that, and
each command adds to it the names it was granted, which do not depend on the file.

So after any sequence of commands from an empty file the file holds the history of
them all. A name below the root stands where it was minted first, and a name below
another one comes to the front whenever it is minted again.

## Main definitions

* `Minting`: A name that was minted.
* `stateOf`: What the file holds after a history.
* `Call.granted`: What a command adds to it.
* `history`: The history of a sequence of commands.

## Theorems

* `loadState_saveState`: What was written is loaded.
* `recordSub_stateOf`, `recordNested_stateOf`: The steps of the history.
* `saved_stateOf`: A command saves the history with what it was granted.
* `loadState_run`: The file holds the history.
-/

namespace WhisperNet

namespace Pyens

open PyVal (get)

inductive Kind
  | sub
  | nested
  deriving DecidableEq

def Kind.text : Kind → PyStr
  | .sub => lit "sub"
  | .nested => lit "nested"

/-- A name that was minted below a parent, and its transaction. -/
structure Minting where
  kind : Kind
  parent : PyStr
  name : PyStr
  hash : PyStr
  deriving DecidableEq

def Minting.entry (m : Minting) : PyVal := logEntry m.kind.text m.name m.hash

/-- The names below the root, those that were minted last for the first time in front. -/
def subnames (ms : List Minting) : List PyStr :=
  ((ms.filter (fun m => m.kind = .sub)).map Minting.name).dedup

/-- The names below each parent, those that were minted last in front. -/
def nestedSubnames (ms : List Minting) : List (PyStr × List PyStr) :=
  grouped Minting.parent Minting.name (ms.filter (fun m => m.kind = .nested))

/-- The name below the root that was minted last. -/
def prefillParent (ms : List Minting) : PyStr :=
  ((ms.filter (fun m => m.kind = .sub)).head?.map Minting.name).getD []

/-- A list of texts. -/
def strs (xs : List PyStr) : PyVal := .list (xs.map .str)

def nestedEntries (ms : List Minting) : Msg :=
  (nestedSubnames ms).map (fun e => (e.1, strs e.2))

/-- What the file holds after a history, newest first. -/
def stateOf (ms : List Minting) : Msg :=
  [(lit "name", .str rootName), (lit "lastOwner", .none), (lit "lastResolver", .none),
   (lit "subnames", strs (subnames ms)), (lit "nestedSubnames", .dict (nestedEntries ms)),
   (lit "prefillParent", .str (prefillParent ms)), (lit "txLog", .list (ms.map Minting.entry))]

/-- What a command adds to the history, in the order of its transactions. -/
def Call.granted (P : Packages) (c : Call) : List Minting :=
  match c.cmd with
  | .createSub label owner wait =>
    match mintSub P c.chain label owner wait with
    | .ok (full, txh) => [⟨.sub, rootName, full, txh⟩]
    | .error _ => []
  | .createNested parent labelsRaw owner wait =>
    match planNested P c.chain parent labelsRaw owner with
    | .ok (parentName, labels, nestedOwner) =>
      labels.filterMap (fun label =>
        (mintChild P c.chain parentName nestedOwner wait label).toOption.map
          (fun txh => ⟨.nested, parentName, label ++ dot :: parentName, txh⟩))
    | .error _ => []

/-- The history of a sequence of commands, newest first. -/
def history (P : Packages) (calls : List Call) : List Minting :=
  (calls.flatMap (Call.granted P)).reverse

theorem stateOf_nil : stateOf [] = defaultState := rfl

/-! ## What is written is loaded -/

/-- The text of the file expresses the texts of a minting. -/
structure Minting.Clear (m : Minting) : Prop where
  parent : Json.Joined m.parent
  name : Json.Joined m.name
  hash : Json.Joined m.hash

theorem plain_strs {F : ℚ → Json.FloatText} {xs : List PyStr} (h : ∀ x ∈ xs, Json.Joined x) :
    Json.Plain F (strs xs) := by
  refine Json.Plain.list _ (fun v hv => ?_)
  rcases List.mem_map.mp hv with ⟨x, hx, hv⟩
  rw [← hv]
  exact Json.Plain.str x (h x hx)

theorem plain_entry (F : ℚ → Json.FloatText) {m : Minting} (h : m.Clear) :
    Json.Plain F m.entry := by
  have hkind : Json.Joined m.kind.text := by
    cases m.kind with
    | sub => decide
    | nested => decide
  have hnodup : [lit "kind", lit "name", lit "hash"].Nodup := by decide +kernel
  refine Json.Plain.dict _ hnodup ?_ ?_
  · simp only [List.forall_mem_cons, List.not_mem_nil, false_implies, implies_true, and_true]
    decide +kernel
  · simp only [List.forall_mem_cons, List.not_mem_nil, false_implies, implies_true, and_true]
    exact ⟨Json.Plain.str _ hkind, Json.Plain.str _ h.name, Json.Plain.str _ h.hash⟩

theorem joined_subnames {ms : List Minting} (h : ∀ m ∈ ms, m.Clear) :
    ∀ x ∈ subnames ms, Json.Joined x := by
  intro x hx
  rw [subnames, List.mem_dedup, List.mem_map] at hx
  rcases hx with ⟨m, hm, hx⟩
  rw [← hx]
  exact (h m (List.mem_filter.mp hm).1).name

theorem plain_nestedEntries (F : ℚ → Json.FloatText) {ms : List Minting}
    (h : ∀ m ∈ ms, m.Clear) : Json.Plain F (.dict (nestedEntries ms)) := by
  have hkeys : (nestedEntries ms).map Prod.fst =
      ((ms.filter (fun m => m.kind = .nested)).map Minting.parent).dedup.reverse := by
    rw [nestedEntries, List.map_map]
    change (nestedSubnames ms).map Prod.fst = _
    exact keys_grouped _
  refine Json.Plain.dict _ ?_ (fun e he => ?_) (fun e he => ?_)
  · rw [hkeys]
    exact List.nodup_reverse.mpr (List.nodup_dedup _)
  · have hmem : e.1 ∈ (nestedEntries ms).map Prod.fst := List.mem_map_of_mem he
    rw [hkeys, List.mem_reverse, List.mem_dedup, List.mem_map] at hmem
    rcases hmem with ⟨m, hm, hparent⟩
    rw [← hparent]
    exact (h m (List.mem_filter.mp hm).1).parent
  · rcases List.mem_map.mp he with ⟨g, hg, he⟩
    rcases List.mem_map.mp hg with ⟨k, _, hg⟩
    rw [← he, ← hg]
    refine plain_strs (fun x hx => ?_)
    rw [under, mem_distinct, List.mem_map] at hx
    rcases hx with ⟨m, hm, hx⟩
    rw [← hx]
    exact (h m (List.mem_filter.mp (List.mem_filter.mp hm).1).1).name

theorem joined_prefillParent {ms : List Minting} (h : ∀ m ∈ ms, m.Clear) :
    Json.Joined (prefillParent ms) := by
  rw [prefillParent]
  cases hhead : (ms.filter (fun m => m.kind = .sub)).head? with
  | none => exact List.isChain_nil
  | some m => exact (h m (List.mem_filter.mp (List.mem_of_mem_head? hhead)).1).name

theorem plain_stateOf (F : ℚ → Json.FloatText) {ms : List Minting} (h : ∀ m ∈ ms, m.Clear) :
    Json.Plain F (.dict (stateOf ms)) := by
  have hlog : Json.Plain F (.list (ms.map Minting.entry)) := by
    refine Json.Plain.list _ (fun v hv => ?_)
    rcases List.mem_map.mp hv with ⟨m, hm, hv⟩
    rw [← hv]
    exact plain_entry F (h m hm)
  have hkeys : (stateOf ms).map Prod.fst = (stateOf []).map Prod.fst := rfl
  refine Json.Plain.dict _ (by rw [hkeys]; decide +kernel) (fun e he => ?_) ?_
  · have hmem : e.1 ∈ (stateOf ms).map Prod.fst := List.mem_map_of_mem he
    rw [hkeys] at hmem
    revert hmem
    generalize e.1 = k
    revert k
    decide +kernel
  · simp only [stateOf, List.forall_mem_cons, List.not_mem_nil, false_implies, implies_true,
      and_true]
    exact ⟨Json.Plain.str _ (by decide +kernel), Json.Plain.none, Json.Plain.none,
      plain_strs (joined_subnames h), plain_nestedEntries F h,
      Json.Plain.str _ (joined_prefillParent h), hlog⟩

/-- What was written is loaded. -/
theorem loadState_saveState (F : ℚ → Json.FloatText) {ms : List Minting}
    (h : ∀ m ∈ ms, m.Clear) : loadState (some (saveState F (stateOf ms))) = .ok (stateOf ms) := by
  have hname : assign (lit "name") (.str rootName) (stateOf ms) = stateOf ms := rfl
  have hroot : pyEq (get (stateOf ms) (lit "name")) (.str rootName) = true := pyEq_refl _
  simp only [loadState, saveState, hname, Json.loads_dumps, Json.reread_plain F (plain_stateOf F h),
    hroot, if_true]
  rfl

/-! ## Steps of the history -/

theorem orElse_list (xs : List PyVal) : orElse (.list xs) (.list []) = .list xs := by
  cases xs with
  | nil => rfl
  | cons x xs => rfl

theorem orElse_dict (kvs : Msg) : orElse (.dict kvs) (.dict []) = .dict kvs := by
  cases kvs with
  | nil => rfl
  | cons e kvs => rfl

theorem pyIn_strs (x : PyStr) (xs : List PyStr) :
    pyIn (.str x) (xs.map .str) = true ↔ x ∈ xs := by
  rw [pyIn, List.any_map, List.any_eq_true]
  simp only [Function.comp_apply, pyEq_str, PyVal.str.injEq, exists_eq_right]

/-- Without repetitions, the texts that were not seen before are left. -/
theorem fromKeys_seen (xs out : List PyStr) (seen : List Key)
    (h : ∀ x, Key.str x ∈ seen ↔ x ∈ out) :
    ∃ news, fromKeys (xs.map .str) seen = .ok (news.map .str) ∧
      xs.foldl addNew out = out ++ news := by
  induction xs generalizing out seen with
  | nil => exact ⟨[], rfl, (List.append_nil out).symm⟩
  | cons x xs ih =>
      rw [List.map_cons, List.foldl_cons]
      by_cases hx : x ∈ out
      · rcases ih out seen h with ⟨news, hnews, hfold⟩
        refine ⟨news, ?_, ?_⟩
        · simp only [fromKeys, hashKey, if_pos ((h x).mpr hx), hnews]
        · rw [addNew, if_pos hx, hfold]
      · have hnext : ∀ y, Key.str y ∈ Key.str x :: seen ↔ y ∈ out ++ [x] := by
          intro y
          rw [List.mem_cons, h, List.mem_append, List.mem_singleton, Key.str.injEq, or_comm]
        rcases ih (out ++ [x]) (Key.str x :: seen) hnext with ⟨news, hnews, hfold⟩
        refine ⟨x :: news, ?_, ?_⟩
        · simp only [fromKeys, hashKey, if_neg (fun hc => hx ((h x).mp hc)), hnews]
          rfl
        · rw [addNew, if_neg hx, hfold, List.append_assoc, List.singleton_append]

theorem fromKeys_strs (xs : List PyStr) :
    fromKeys (xs.map .str) [] = .ok ((distinct xs).map .str) := by
  have hseen : ∀ x : PyStr, Key.str x ∈ ([] : List Key) ↔ x ∈ ([] : List PyStr) := by
    intro x
    simp only [List.not_mem_nil]
  rcases fromKeys_seen xs [] [] hseen with ⟨news, hnews, hfold⟩
  rw [hnews, distinct, hfold, List.nil_append]

/-- A name below the root is added to the history. -/
theorem recordSub_stateOf (ms : List Minting) (full txh : PyStr) :
    recordSub (stateOf ms) full txh = .ok (stateOf (⟨.sub, rootName, full, txh⟩ :: ms)) := by
  have hlog : get (stateOf ms) (lit "txLog") = .list (ms.map Minting.entry) := rfl
  have hsubs : get (stateOf ms) (lit "subnames") = .list ((subnames ms).map .str) := rfl
  have hnames : (if pyIn (.str full) ((subnames ms).map .str) then (subnames ms).map PyVal.str
      else .str full :: (subnames ms).map .str) =
      (subnames (⟨.sub, rootName, full, txh⟩ :: ms)).map .str := by
    have hcons : subnames (⟨.sub, rootName, full, txh⟩ :: ms) =
        (full :: (ms.filter (fun m => m.kind = .sub)).map Minting.name).dedup := rfl
    by_cases hfull : full ∈ (ms.filter (fun m => m.kind = .sub)).map Minting.name
    · have hold : full ∈ subnames ms := List.mem_dedup.mpr hfull
      rw [if_pos ((pyIn_strs full _).mpr hold), hcons, List.dedup_cons_of_mem hfull, subnames]
    · have hnew : full ∉ subnames ms := fun hc => hfull (List.mem_dedup.mp hc)
      rw [if_neg (fun hc => hnew ((pyIn_strs full _).mp hc)), hcons,
        List.dedup_cons_of_notMem hfull, List.map_cons, subnames]
  have hrecord : recordSub (stateOf ms) full txh =
      .ok (assign (lit "txLog") (.list (logEntry (lit "sub") full txh :: ms.map Minting.entry))
        (assign (lit "prefillParent") (.str full) (assign (lit "subnames")
          (.list (if pyIn (.str full) ((subnames ms).map .str) then (subnames ms).map PyVal.str
            else .str full :: (subnames ms).map .str)) (stateOf ms)))) := by
    unfold recordSub
    rw [hlog, hsubs, orElse_list, orElse_list]
    rfl
  rw [hrecord, hnames]
  rfl

/-- What is below a parent is what is found in the file. -/
theorem getD_nestedEntries (parent : PyStr) (ms : List Minting) :
    PyVal.getD (nestedEntries ms) parent (.list []) =
      strs (under Minting.parent Minting.name parent
        (ms.filter (fun m => m.kind = .nested))) := by
  rw [PyVal.getD, nestedEntries, lookup_view strs, ← lookup_grouped, nestedSubnames]
  exact Option.getD_map strs [] _

/-- A name below another one is added to the names of its parent. -/
theorem mergeName_nestedEntries (ms : List Minting) (parent full txh : PyStr) :
    mergeName parent full (nestedEntries ms) =
      .ok (nestedEntries (⟨.nested, parent, full, txh⟩ :: ms)) := by
  have hcons : nestedSubnames (⟨.nested, parent, full, txh⟩ :: ms) =
      assign parent (distinct (full :: under Minting.parent Minting.name parent
        (ms.filter (fun m => m.kind = .nested)))) (nestedSubnames ms) :=
    grouped_cons (⟨.nested, parent, full, txh⟩ : Minting) _
  unfold mergeName
  rw [getD_nestedEntries]
  dsimp only [strs]
  rw [← List.map_cons, fromKeys_strs, nestedEntries, nestedEntries, hcons, assign_view strs]
  rfl

/-- The file of a history to which names below a parent are added. -/
theorem assign_nested (ms ns : List Minting) (h : ∀ n ∈ ns, n.kind = .nested) :
    assign (lit "txLog") (.list ((ns ++ ms).map Minting.entry))
      (assign (lit "nestedSubnames") (.dict (nestedEntries (ns ++ ms))) (stateOf ms)) =
      stateOf (ns ++ ms) := by
  have hsub : (ns ++ ms).filter (fun m => m.kind = .sub) =
      ms.filter (fun m => m.kind = .sub) := by
    have hnone : ns.filter (fun m => m.kind = .sub) = [] := by
      refine List.filter_eq_nil_iff.mpr (fun n hn hc => ?_)
      rw [h n hn] at hc
      exact absurd hc (by decide)
    rw [List.filter_append, hnone, List.nil_append]
  have hsubnames : subnames (ns ++ ms) = subnames ms := by
    rw [subnames, hsub, ← subnames]
  have hprefill : prefillParent (ns ++ ms) = prefillParent ms := by
    rw [prefillParent, hsub, ← prefillParent]
  conv_rhs => rw [stateOf, hsubnames, hprefill]
  rfl

/-- What a batch adds to the history. -/
def grantedBy (parent : PyStr) (labels : List PyStr) (mint : PyStr → Except Stop PyStr) :
    List Minting :=
  labels.filterMap (fun label => (mint label).toOption.map
    (fun txh => ⟨.nested, parent, label ++ dot :: parent, txh⟩))

/-- The loop over the labels adds what it is granted. -/
theorem foldl_addChild (parent : PyStr) (mint : PyStr → Except Stop PyStr) (labels : List PyStr)
    (ms : List Minting) (successes : List (PyStr × PyStr)) (failures : List (PyStr × Stop)) :
    ∃ failures', labels.foldl (fun b label => addChild parent b label (mint label))
        ⟨successes, failures, ms.map Minting.entry, nestedEntries ms⟩ =
      ⟨successes ++ (grantedBy parent labels mint).map (fun m => (m.name, m.hash)), failures',
        ((grantedBy parent labels mint).reverse ++ ms).map Minting.entry,
        nestedEntries ((grantedBy parent labels mint).reverse ++ ms)⟩ := by
  induction labels generalizing ms successes failures with
  | nil =>
      refine ⟨failures, ?_⟩
      rw [grantedBy, List.filterMap_nil, List.map_nil, List.append_nil]
      rfl
  | cons label labels ih =>
      rw [List.foldl_cons]
      cases hmint : mint label with
      | error e =>
          have hgranted : grantedBy parent (label :: labels) mint =
              grantedBy parent labels mint := by
            rw [grantedBy, List.filterMap_cons, hmint]
            rfl
          rw [hgranted]
          exact ih ms successes (failures ++ [(label, e)])
      | ok txh =>
          have hgranted : grantedBy parent (label :: labels) mint =
              ⟨.nested, parent, label ++ dot :: parent, txh⟩ :: grantedBy parent labels mint := by
            rw [grantedBy, List.filterMap_cons, hmint]
            rfl
          -- The merge of a file that the program wrote does not raise.
          have hadd : addChild parent ⟨successes, failures, ms.map Minting.entry, nestedEntries ms⟩
              label (.ok txh) =
              ⟨successes ++ [(label ++ dot :: parent, txh)], failures,
                (⟨.nested, parent, label ++ dot :: parent, txh⟩ :: ms : List Minting).map
                  Minting.entry,
                nestedEntries (⟨.nested, parent, label ++ dot :: parent, txh⟩ :: ms)⟩ := by
            simp only [addChild, mergeName_nestedEntries ms parent (label ++ dot :: parent) txh]
            rfl
          rw [hadd, hgranted, List.reverse_cons, List.append_assoc, List.singleton_append]
          rcases ih (⟨.nested, parent, label ++ dot :: parent, txh⟩ :: ms)
            (successes ++ [(label ++ dot :: parent, txh)]) failures with ⟨failures', hrest⟩
          refine ⟨failures', hrest.trans ?_⟩
          rw [List.append_assoc]
          rfl

/-- A batch saves the history with what it was granted, or nothing if that is nothing. -/
theorem recordNested_stateOf (ms : List Minting) (parent : PyStr) (labels : List PyStr)
    (mint : PyStr → Except Stop PyStr) :
    ∃ b, recordNested (stateOf ms) parent labels mint =
      .ok (b, if grantedBy parent labels mint = [] then none
        else some (stateOf ((grantedBy parent labels mint).reverse ++ ms))) := by
  have hlog : get (stateOf ms) (lit "txLog") = .list (ms.map Minting.entry) := rfl
  have hmap : get (stateOf ms) (lit "nestedSubnames") = .dict (nestedEntries ms) := rfl
  have hnested : ∀ n ∈ (grantedBy parent labels mint).reverse, n.kind = .nested := by
    intro n hn
    rw [List.mem_reverse, grantedBy, List.mem_filterMap] at hn
    rcases hn with ⟨label, _, hn⟩
    rcases Option.map_eq_some_iff.mp hn with ⟨txh, _, hn⟩
    rw [← hn]
  rcases foldl_addChild parent mint labels ms [] [] with ⟨failures, hloop⟩
  refine ⟨labels.foldl (fun b label => addChild parent b label (mint label))
    ⟨[], [], ms.map Minting.entry, nestedEntries ms⟩, ?_⟩
  unfold recordNested
  rw [hlog, hmap, orElse_list, orElse_dict]
  change Except.ok (labels.foldl (fun b label => addChild parent b label (mint label))
    ⟨[], [], ms.map Minting.entry, nestedEntries ms⟩, _) = _
  rw [hloop]
  simp only [assign_nested ms _ hnested, List.nil_append, List.map_eq_nil_iff]

/-! ## Runs of commands -/

/-- What a command saves of a history: nothing if it was granted nothing. -/
theorem saved_stateOf (P : Packages) (c : Call) {file : Option PyStr} {ms : List Minting}
    (h : loadState file = .ok (stateOf ms)) :
    (c.saved P file).toOption.join = if c.granted P = [] then none
      else some (stateOf ((c.granted P).reverse ++ ms)) := by
  rcases c with ⟨chain, cmd⟩
  cases cmd with
  | createSub label owner wait =>
      have hsaved : Call.saved P ⟨chain, .createSub label owner wait⟩ file =
          (mintSub P chain label owner wait).bind (fun minted =>
            (raising (recordSub (stateOf ms) minted.1 minted.2)).bind (fun st =>
              .ok (some st))) := by
        unfold Call.saved
        dsimp only
        rw [h]
        rfl
      rw [hsaved]
      cases hmint : mintSub P chain label owner wait with
      | error e => simp only [Call.granted, hmint, if_true, Except.bind]; rfl
      | ok minted =>
          simp only [Call.granted, hmint, Except.bind, recordSub_stateOf]
          rfl
  | createNested parent labelsRaw owner wait =>
      have hsaved : Call.saved P ⟨chain, .createNested parent labelsRaw owner wait⟩ file =
          (planNested P chain parent labelsRaw owner).bind (fun plan =>
            (raising (recordNested (stateOf ms) plan.1 plan.2.1
              (mintChild P chain plan.1 plan.2.2 wait))).bind (fun saved => .ok saved.2)) := by
        unfold Call.saved
        dsimp only
        rw [h]
        rfl
      rw [hsaved]
      cases hplan : planNested P chain parent labelsRaw owner with
      | error e => simp only [Call.granted, hplan, if_true, Except.bind]; rfl
      | ok plan =>
          have hgranted : Call.granted P ⟨chain, .createNested parent labelsRaw owner wait⟩ =
              grantedBy plan.1 plan.2.1 (mintChild P chain plan.1 plan.2.2 wait) := by
            simp only [Call.granted, hplan, grantedBy]
          rcases recordNested_stateOf ms plan.1 plan.2.1
            (mintChild P chain plan.1 plan.2.2 wait) with ⟨b, hrecord⟩
          rw [hgranted]
          simp only [Except.bind, hrecord, raising]
          rfl

/-- A command leaves the file if it was granted nothing, and else it writes the history
    with what it was granted. -/
theorem file_stateOf (F : ℚ → Json.FloatText) (P : Packages) (c : Call) {file : Option PyStr}
    {ms : List Minting} (h : loadState file = .ok (stateOf ms)) :
    c.file F P file = if c.granted P = [] then file
      else some (saveState F (stateOf ((c.granted P).reverse ++ ms))) := by
  have hfile : c.file F P file =
      ((c.saved P file).toOption.join.map (saveState F)).or file := by
    unfold Call.file
    cases c.saved P file with
    | error e => rfl
    | ok st =>
        cases st with
        | none => rfl
        | some st => rfl
  rw [hfile, saved_stateOf P c h]
  split
  · rfl
  · rfl

theorem history_cons (P : Packages) (c : Call) (calls : List Call) :
    history P (c :: calls) = history P calls ++ (c.granted P).reverse := by
  rw [history, List.flatMap_cons, List.reverse_append, ← history]

/-- The file of a history, and after more commands the file of a longer one. -/
theorem loadState_run (F : ℚ → Json.FloatText) (P : Packages) (calls : List Call)
    (hclear : ∀ c ∈ calls, ∀ m ∈ c.granted P, m.Clear) {file : Option PyStr} {ms : List Minting}
    (hms : ∀ m ∈ ms, m.Clear) (h : loadState file = .ok (stateOf ms)) :
    loadState (calls.foldl (Call.file F P) file) = .ok (stateOf (history P calls ++ ms)) ∧
      (history P calls = [] → calls.foldl (Call.file F P) file = file) := by
  induction calls generalizing file ms with
  | nil => exact ⟨h, fun _ => rfl⟩
  | cons c calls ih =>
      rw [List.forall_mem_cons] at hclear
      rw [List.foldl_cons, history_cons, List.append_assoc]
      have hmore : ∀ m ∈ (c.granted P).reverse ++ ms, m.Clear := by
        intro m hm
        rcases List.mem_append.mp hm with hm | hm
        · exact hclear.1 m (List.mem_reverse.mp hm)
        · exact hms m hm
      have hnext : loadState (c.file F P file) =
          .ok (stateOf ((c.granted P).reverse ++ ms)) := by
        rw [file_stateOf F P c h]
        by_cases hnone : c.granted P = []
        · rw [if_pos hnone, hnone, h]
          rfl
        · rw [if_neg hnone]
          exact loadState_saveState F hmore
      rcases ih hclear.2 hmore hnext with ⟨hrun, hsame⟩
      refine ⟨hrun, fun hempty => ?_⟩
      rw [List.append_eq_nil_iff, List.reverse_eq_nil_iff] at hempty
      rw [hsame hempty.1, file_stateOf F P c h, if_pos hempty.2]

end Pyens

end WhisperNet
