import WhisperNet.Demo.Spawning

/-!
# The Registry of the Nodes

The ports that the web UI polls, and what they have to do with the nodes it has started.
A port it was told to poll at the start stays for good, since every new node gets a
higher one. Apart from these, the registry should have the nodes that have been started
and not been removed. It does unless an answer of a removed node arrives late: the poller
goes through the ports that were there at the start of the poll, and it stores an answer
under the port it asked, whether that is still registered or not.

Two nodes of one number would share a key, a ledger and the ports they listen on. A node
that has been removed is no longer in the registry, but its processes are there until they
end, and its number is free. So it takes two things: a request for a new node only reads the
ports while no other request is under way, and when every process that has been told to
terminate has ended. Then a request keeps the highest port of all until it registers it.

## Main definitions

* `Hub.Registered`, `Hub.Dynamic`: The ports that are polled, and those of started nodes.
* `Hub.Based`: The ports of the start are below all others.
* `Hub.Timely`: An answer comes from a port that is still registered.
* `Hub.Alone`: A request reads the ports when no other one is under way or has left a process.
* `Hub.Crewed`: What the processes of a node have been started with.
* `Hub.Unshared`: No two processes have one number, and none that of a request.
* `Hub.Orderly`: What holds of the nodes if requests come one at a time.

## Theorems

* `Hub.nodes_listed`: When the registry has exactly the nodes there are.
* `Hub.nodes_orderly`: Requests for new nodes that come one at a time.
-/

namespace WhisperNet

namespace Hub

def Registered (h : Hub) (port : Nat) : Prop := ∃ state, h.nodeStates.get? port = some state

def Dynamic (h : Hub) (port : Nat) : Prop := ∃ procs, h.dynamicProcs.get? port = some procs

variable (hasShard : Int → Bool) {h h' : Hub} {e : HubEvent}

theorem mem_keys_iff_registered {port : Nat} : port ∈ h.nodeStates.keys ↔ h.Registered port :=
  Dict.mem_keys _ _

theorem dynamic_of_crew {port : Nat} {c : Nat × List Nat} (hcrew : h.crew (.node port) = some c) :
    h.Dynamic port ∧ c.1 = port := by
  rw [crew, Option.map_eq_some_iff] at hcrew
  rcases hcrew with ⟨procs, hprocs, hc⟩
  exact ⟨⟨procs, hprocs⟩, by rw [← hc]⟩

theorem crew_of_dynamic {port : Nat} (hd : h.Dynamic port) :
    ∃ procs, h.crew (.node port) = some (port, procs) := by
  rcases hd with ⟨procs, hprocs⟩
  exact ⟨_, by rw [crew, hprocs, Option.map_some]⟩

theorem dynamic_of_max {port : Nat} (hmax : h.dynamicProcs.keys.max? = some port) :
    h.Dynamic port :=
  (Dict.mem_keys _ _).mp (List.max?_mem hmax)

theorem registered_start {ports : List Nat} {axlCfg : Dict Int Int} {port : Nat} :
    (start ports axlCfg).Registered port ↔ port ∈ ports := by
  have hfold : ∀ (d : Dict Nat (Option Snapshot)) (ps : List Nat),
      (∃ state, (ps.foldl (fun d p => d.set p none) d).get? port = some state) ↔
        (∃ state, d.get? port = some state) ∨ port ∈ ps := by
    intro d ps
    induction ps generalizing d with
    | nil => simp only [List.foldl_nil, List.not_mem_nil, or_false]
    | cons p ps ih =>
        rw [List.foldl_cons, ih, Dict.get?_set, List.mem_cons]
        by_cases hp : port = p
        · simp only [hp, if_true, Option.some.injEq, exists_eq', true_or, or_true]
        · simp only [hp, if_false, false_or]
  exact (hfold Dict.empty ports).trans
    (or_iff_right (fun hc => by
      rcases hc with ⟨state, hstate⟩
      cases hstate))

/-! ## The ports of the start -/

/-- The ports of the start are registered, and every other node has a higher one. -/
structure Based (base : List Nat) (h : Hub) : Prop where
  above : ∀ x c, h.crew x = some c → ∀ b ∈ base, b < c.1
  known : ∀ b ∈ base, h.Registered b

/-- A keeper has the port it had, or it is a request that has read the ports, a node that
    a request has registered, or the removal of a node. -/
theorem crew_step (hstep : h.step hasShard e = some h') {x : Keeper} {c : Nat × List Nat}
    (hx : h'.crew x = some c) :
    (∃ c', h.crew x = some c' ∧ c'.1 = c.1) ∨
    (∃ r top, e = .read r ∧ x = .request r ∧ h.nodeStates.keys.max? = some top ∧
      c.1 = top + 1) ∨
    (∃ r exc c', e = .advance r exc ∧ x = .node c.1 ∧ h.crew (.request r) = some c' ∧
      c'.1 = c.1 ∧ h'.crew (.request r) = none) ∨
    (∃ r c', e = .remove r ∧ x = .removal r ∧ h.crew (.node c.1) = some c' ∧ c'.1 = c.1 ∧
      h'.crew (.node c.1) = none) := by
  cases act_of_step hasShard hstep with
  | refused r answer => exact Or.inl ⟨c, hx, rfl⟩
  | planned r top hr hmax =>
      -- The only step that takes a new port: one above all that are registered.
      rw [crew_goOn] at hx
      split at hx
      · rename_i hxr
        refine Or.inr (Or.inl ⟨r, top, rfl, hxr, hmax, ?_⟩)
        rw [← Option.some.inj hx]
        rfl
      · exact Or.inl ⟨c, hx, rfl⟩
  | configured r plan ha =>
      rw [crew_goOn, crew_configure] at hx
      split at hx
      · rename_i hxr
        exact Or.inl ⟨_, hxr ▸ crew_request r ha, by rw [← Option.some.inj hx]⟩
      · exact Or.inl ⟨c, hx, rfl⟩
  | keyed r plan ha =>
      rw [crew_goOn] at hx
      split at hx
      · rename_i hxr
        exact Or.inl ⟨_, hxr ▸ crew_request r ha, by rw [← Option.some.inj hx]⟩
      · exact Or.inl ⟨c, hx, rfl⟩
  | failed r plan stage exc answer ha hprocs =>
      rw [crew_giveUp] at hx
      split at hx
      · cases hx
      · exact Or.inl ⟨c, hx, rfl⟩
  | axl r plan ha =>
      rw [crew_goOn, crew_launch] at hx
      split at hx
      · rename_i hxr
        exact Or.inl ⟨_, hxr ▸ crew_request r ha, by rw [← Option.some.inj hx]⟩
      · exact Or.inl ⟨c, hx, rfl⟩
  | whisper r plan axl ha =>
      rw [crew_goOn, crew_launch] at hx
      split at hx
      · rename_i hxr
        exact Or.inl ⟨_, hxr ▸ crew_request r ha, by rw [← Option.some.inj hx]⟩
      · exact Or.inl ⟨c, hx, rfl⟩
  | dropped r plan axl exc answer ha =>
      rw [crew_giveUp, crew_tell] at hx
      split at hx
      · cases hx
      · exact Or.inl ⟨c, hx, rfl⟩
  | registered r plan axl whisper answer ha =>
      rw [crew_giveUp, crew_register] at hx
      split at hx
      · cases hx
      · split at hx
        · rename_i hxn
          have hport : plan.port = c.1 := by rw [← Option.some.inj hx]
          refine Or.inr (Or.inr (Or.inl ⟨r, none, _, rfl, hport ▸ hxn, crew_request r ha, hport,
            ?_⟩))
          rw [crew_giveUp, if_pos rfl]
        · exact Or.inl ⟨c, hx, rfl⟩
  | nothing r answer hmax => exact Or.inl ⟨c, hx, rfl⟩
  | taken r port hr hmax =>
      rw [crew_takeOut r hmax] at hx
      split at hx
      · cases hx
      · split at hx
        · rename_i hxr
          have hport : port = c.1 := by rw [← Option.some.inj hx]
          rcases crew_of_dynamic (dynamic_of_max hmax) with ⟨procs, hcrew⟩
          rw [hport] at hcrew
          refine Or.inr (Or.inr (Or.inr ⟨r, _, rfl, hxr, hcrew, rfl, ?_⟩))
          rw [crew_takeOut r hmax, if_pos (congrArg Keeper.node hport.symm)]
        · exact Or.inl ⟨c, hx, rfl⟩
  | told r port total proc procs hr =>
      rw [crew_told] at hx
      split at hx
      · rename_i hxr
        exact Or.inl ⟨_, hxr ▸ crew_removal r hr, by rw [← Option.some.inj hx]⟩
      · exact Or.inl ⟨c, hx, rfl⟩
  | removed r port total answer hr =>
      rw [crew_removed] at hx
      split at hx
      · cases hx
      · exact Or.inl ⟨c, hx, rfl⟩
  | exited proc hp => exact Or.inl ⟨c, (crew_quit proc x).symm.trans hx, rfl⟩
  | polled => exact Or.inl ⟨c, hx, rfl⟩
  | same state port todo htodo hsame => exact Or.inl ⟨c, hx, rfl⟩
  | stored state port todo htodo hnew => exact Or.inl ⟨c, hx, rfl⟩

/-- A port that is taken out of the registry is that of a started node. -/
theorem registered_step (hstep : h.step hasShard e = some h') {port : Nat}
    (hp : h.Registered port) : h'.Registered port ∨ h.Dynamic port := by
  cases act_of_step hasShard hstep with
  | registered r plan axl whisper answer ha =>
      refine Or.inl ?_
      by_cases heq : port = plan.port
      · exact ⟨none, heq ▸ Dict.get?_set_self ..⟩
      · rcases hp with ⟨state, hstate⟩
        exact ⟨state, (Dict.get?_set_of_ne _ _ _ _ heq).trans hstate⟩
  | taken r top hr hmax =>
      by_cases heq : port = top
      · exact Or.inr (heq ▸ dynamic_of_max hmax)
      · rcases takeOut_eq r hmax with ⟨axl, whisper, -, htake⟩
        rcases hp with ⟨state, hstate⟩
        rw [htake]
        exact Or.inl ⟨state, (Dict.get?_erase_of_ne _ _ _ heq).trans hstate⟩
  | stored state asked todo htodo hnew =>
      refine Or.inl ?_
      by_cases heq : port = asked
      · exact ⟨state, heq ▸ Dict.get?_set_self ..⟩
      · rcases hp with ⟨old, hold⟩
        exact ⟨old, (Dict.get?_set_of_ne _ _ _ _ heq).trans hold⟩
  | _ => exact Or.inl hp

theorem based_step {base : List Nat} (hb : h.Based base) (hstep : h.step hasShard e = some h') :
    h'.Based base where
  above x c hx b hmem := by
    rcases crew_step hasShard hstep hx with ⟨c', hc, heq⟩ | ⟨r, top, -, -, hmax, heq⟩ |
      ⟨r, exc, c', -, -, hc, heq, -⟩ | ⟨r, c', -, -, hc, heq, -⟩
    · exact heq ▸ hb.above x c' hc b hmem
    · -- The ports that were read have those of the start.
      have hle := (List.max?_eq_some_iff.mp hmax).2 b
        (mem_keys_iff_registered.mpr (hb.known b hmem))
      omega
    · exact heq ▸ hb.above _ c' hc b hmem
    · exact heq ▸ hb.above _ c' hc b hmem
  known b hmem := by
    rcases registered_step hasShard hstep (hb.known b hmem) with hreg | hdyn
    · exact hreg
    · rcases crew_of_dynamic hdyn with ⟨procs, hcrew⟩
      exact absurd (hb.above _ _ hcrew b hmem) (Nat.lt_irrefl b)

theorem crew_start (ports : List Nat) (axlCfg : Dict Int Int) (x : Keeper) :
    (start ports axlCfg).crew x = none := by
  cases x <;> rfl

theorem based_start (ports : List Nat) (axlCfg : Dict Int Int) :
    (start ports axlCfg).Based ports where
  above x c hx := by
    rw [crew_start] at hx
    cases hx
  known b hb := registered_start.mpr hb

/-! ## The nodes in the registry -/

/-- The registry has the ports of the start and the nodes that have been started and not
    been taken out. -/
def Listed (base : List Nat) (h : Hub) : Prop :=
  ∀ port, h.Registered port ↔ port ∈ base ∨ h.Dynamic port

/-- A node that answers is still registered. -/
def Timely (h : Hub) : HubEvent → Prop
  | .answer (some _) => ∀ port todo, h.todo = port :: todo → h.Registered port
  | _ => True

/-- An answer that is not that of a registered node is nothing. -/
theorem timely_of_registered {state : Option Snapshot} {port : Nat} {todo : List Nat}
    (htodo : h.todo = port :: todo) (hp : h.Registered port) : h.Timely (.answer state) := by
  cases state with
  | none => trivial
  | some s =>
      intro port' todo' htodo'
      rw [htodo, List.cons.injEq] at htodo'
      exact htodo'.1 ▸ hp

theorem listed_step {base : List Nat} (hb : h.Based base) (hl : h.Listed base)
    (hstep : h.step hasShard e = some h') : h'.Listed base ↔ h.Timely e := by
  cases act_of_step hasShard hstep with
  | registered r plan axl whisper answer ha =>
      refine iff_of_true (fun port => ?_) trivial
      by_cases heq : port = plan.port
      · exact iff_of_true ⟨none, heq ▸ Dict.get?_set_self ..⟩
          (Or.inr ⟨(axl, whisper), heq ▸ Dict.get?_set_self ..⟩)
      · have hold := hl port
        rw [Registered, Dynamic] at hold ⊢
        simp only [giveUp, reply, register, Dict.get?_set_of_ne _ _ _ _ heq]
        exact hold
  | taken r top hr hmax =>
      refine iff_of_true (fun port => ?_) trivial
      rcases takeOut_eq r hmax with ⟨axl, whisper, -, htake⟩
      rcases crew_of_dynamic (dynamic_of_max hmax) with ⟨procs, hcrew⟩
      rw [htake, Registered, Dynamic]
      by_cases heq : port = top
      · -- A port of the start is not that of a started node.
        have hbase : port ∉ base := fun hmem =>
          Nat.lt_irrefl port (heq ▸ hb.above _ _ hcrew port hmem)
        rw [heq] at hbase ⊢
        simp only [Dict.get?_erase_self, reduceCtorEq, exists_false, hbase, or_self]
      · simp only [Dict.get?_erase_of_ne _ _ _ heq]
        exact hl port
  | same state port todo htodo hsame =>
      refine iff_of_true hl (?_ : h.Timely (.answer state))
      cases state with
      | none => trivial
      | some s =>
          cases hp : h.nodeStates.get? port with
          | none =>
              rw [hp] at hsame
              cases hsame
          | some old => exact timely_of_registered htodo ⟨old, hp⟩
  | stored state asked todo htodo hnew =>
      have hiff : h.Registered asked ↔ h.Timely (.answer state) := by
        refine ⟨timely_of_registered htodo, fun ht => ?_⟩
        cases state with
        | some s => exact ht asked todo htodo
        | none =>
            cases hp : h.nodeStates.get? asked with
            | some old => exact ⟨old, hp⟩
            | none =>
                rw [hp] at hnew
                cases hnew
      rw [← hiff]
      constructor
      · intro hafter
        -- The port is registered now, so it is one of the start or a started node.
        exact (hl asked).mpr ((hafter asked).mp ⟨state, Dict.get?_set_self ..⟩)
      · intro hasked port
        by_cases heq : port = asked
        · exact iff_of_true ⟨state, heq ▸ Dict.get?_set_self ..⟩ (heq ▸ (hl asked).mp hasked)
        · have hold := hl port
          rw [Registered] at hold ⊢
          simp only [Dict.get?_set_of_ne _ _ _ _ heq]
          exact hold
  | _ => exact iff_of_true hl trivial

/-- In every run, the web UI polls exactly the nodes it was given and those it has
    started and not removed, if and only if every answer comes from a node that is still
    registered when it is stored. -/
theorem nodes_listed (ports : List Nat) (axlCfg : Dict Int Int) (es : List HubEvent) :
    Machine.Throughout (step hasShard) (Listed ports) (start ports axlCfg) es ↔
      Machine.Along (step hasShard) Timely (start ports axlCfg) es := by
  refine Machine.throughout_iff_along_of_fair _ (Based ports) _ (fun _ _ => True) _ ?_ ?_ _ es
    (based_start ports axlCfg) (fun port => ?_)
    (Machine.along_of_forall _ _ _ es (fun _ _ _ => trivial))
  · intro h e h' hb _ hstep
    exact based_step hasShard hb hstep
  · intro h e h' hb hl _ hstep
    exact listed_step hasShard hb hl hstep
  · rw [registered_start]
    refine (or_iff_left (fun hd => ?_)).symm
    rcases hd with ⟨procs, hprocs⟩
    cases hprocs

/-! ## Requests that come one at a time -/

/-- A request for a new node reads the ports when no other request is under way, and every
    process that has been told to terminate has ended. -/
def Alone (h : Hub) : HubEvent → Prop
  | .read _ => h.adding.keys = [] ∧ h.removing.keys = [] ∧ h.told = []
  | _ => True

instance decidableAlone (h : Hub) : (e : HubEvent) → Decidable (h.Alone e)
  | .read _ => inferInstanceAs (Decidable (_ ∧ _ ∧ _))
  | .advance _ _ | .remove _ | .terminate _ | .exit _ | .poll | .answer _ => isTrue trivial

/-- No two keepers have one port, and that of a request is the highest. -/
structure Placed (h : Hub) : Prop where
  top : ∀ r c x c', h.crew (.request r) = some c → x ≠ .request r → h.crew x = some c' →
    c'.1 < c.1
  apart : ∀ x y c c', h.crew x = some c → h.crew y = some c' → c.1 = c'.1 → x = y
  listed : ∀ port, h.Dynamic port → h.Registered port

theorem get?_of_keys_nil {κ α : Type} [DecidableEq κ] {d : Dict κ α} (hd : d.keys = []) (k : κ) :
    d.get? k = none := by
  cases hk : d.get? k with
  | none => rfl
  | some v =>
      have hmem := (Dict.mem_keys d k).mpr ⟨v, hk⟩
      rw [hd] at hmem
      exact absurd hmem List.not_mem_nil

/-- When no request is under way, only the registered nodes are there. -/
theorem crew_of_alone {r : Nat} {x : Keeper} {c : Nat × List Nat} (hp : h.Placed)
    (ha : h.Alone (.read r)) (hx : h.crew x = some c) : x = .node c.1 ∧ h.Registered c.1 := by
  cases x with
  | request r' =>
      rw [crew, get?_of_keys_nil ha.1] at hx
      cases hx
  | removal r' =>
      rw [crew, get?_of_keys_nil ha.2.1] at hx
      cases hx
  | node port =>
      rcases dynamic_of_crew hx with ⟨hdyn, heq⟩
      rw [heq]
      exact ⟨rfl, hp.listed port hdyn⟩

theorem listed_of_placed (hp : h.Placed) (hstep : h.step hasShard e = some h') {port : Nat}
    (hd : h'.Dynamic port) : h'.Registered port := by
  cases act_of_step hasShard hstep with
  | registered r plan axl whisper answer ha =>
      by_cases heq : port = plan.port
      · exact ⟨none, heq ▸ Dict.get?_set_self ..⟩
      · rcases hd with ⟨procs, hprocs⟩
        rcases hp.listed port ⟨procs, (Dict.get?_set_of_ne _ _ _ _ heq).symm.trans hprocs⟩ with
          ⟨state, hstate⟩
        exact ⟨state, (Dict.get?_set_of_ne _ _ _ _ heq).trans hstate⟩
  | taken r top hr hmax =>
      rcases takeOut_eq r hmax with ⟨axl, whisper, -, htake⟩
      rw [htake] at hd ⊢
      rcases hd with ⟨procs, hprocs⟩
      by_cases heq : port = top
      · rw [heq] at hprocs
        exact absurd hprocs (by rw [Dict.get?_erase_self]; exact fun hc => by cases hc)
      · rcases hp.listed port ⟨procs, (Dict.get?_erase_of_ne _ _ _ heq).symm.trans hprocs⟩ with
          ⟨state, hstate⟩
        exact ⟨state, (Dict.get?_erase_of_ne _ _ _ heq).trans hstate⟩
  | stored state asked todo htodo hnew =>
      by_cases heq : port = asked
      · exact ⟨state, heq ▸ Dict.get?_set_self ..⟩
      · rcases hp.listed port hd with ⟨old, hold⟩
        exact ⟨old, (Dict.get?_set_of_ne _ _ _ _ heq).trans hold⟩
  | _ => exact hp.listed port hd

theorem top_of_alone (hp : h.Placed) {r top : Nat} (ha : h.Alone (.read r))
    (hmax : h.nodeStates.keys.max? = some top) {x : Keeper} {c : Nat × List Nat}
    (hx : h.crew x = some c) : c.1 ≤ top :=
  (List.max?_eq_some_iff.mp hmax).2 _
    (mem_keys_iff_registered.mpr (crew_of_alone hp ha hx).2)

theorem placed_step (hp : h.Placed) (ha : h.Alone e) (hstep : h.step hasShard e = some h') :
    h'.Placed where
  listed port hd := listed_of_placed hasShard hp hstep hd
  top r c x c' hr hne hx := by
    rcases crew_step hasShard hstep hr with ⟨d, hd, heq⟩ | ⟨r', top, rfl, hr', hmax, heq⟩ |
      ⟨_, _, _, _, hr', _⟩ | ⟨_, _, _, hr', _⟩
    · rcases crew_step hasShard hstep hx with ⟨d', hd', heq'⟩ | ⟨r', top, rfl, -, -, -⟩ |
        ⟨r', exc, d', -, -, hd', heq', hnone⟩ | ⟨r', d', -, -, hd', heq', hnone⟩
      · exact heq' ▸ heq ▸ hp.top r d x d' hd hne hd'
      · -- A request that reads the ports is the only one.
        exact absurd (crew_of_alone hp ha hd).1 (fun hc => by cases hc)
      · refine heq' ▸ heq ▸ hp.top r d _ d' hd (fun hc => ?_) hd'
        rw [hc, hr] at hnone
        cases hnone
      · exact heq' ▸ heq ▸ hp.top r d _ d' hd (fun hc => by cases hc) hd'
    · rcases crew_step hasShard hstep hx with ⟨d', hd', heq'⟩ | ⟨r'', top', hread, hx', -, -⟩ |
        ⟨_, _, _, hread, _⟩ | ⟨_, _, hread, _⟩
      · have hle := top_of_alone hp ha hmax hd'
        omega
      · rw [HubEvent.read.injEq] at hread
        exact absurd (by rw [hx', hr', hread]) hne
      · cases hread
      · cases hread
    · cases hr'
    · cases hr'
  apart x y c c' hx hy hport := by
    rcases crew_step hasShard hstep hx with ⟨d, hd, heq⟩ | ⟨r, top, rfl, hxr, hmax, heq⟩ |
      ⟨r, exc, d, rfl, hxn, hd, heq, hnone⟩ | ⟨r, d, rfl, hxr, hd, heq, hnone⟩
    · rcases crew_step hasShard hstep hy with ⟨d', hd', heq'⟩ | ⟨r', top, rfl, -, hmax, heq'⟩ |
        ⟨r', exc, d', rfl, -, hd', heq', hnone'⟩ | ⟨r', d', rfl, -, hd', heq', hnone'⟩
      · exact hp.apart x y d d' hd hd' (by rw [heq, heq', hport])
      · have hle := top_of_alone hp ha hmax hd
        omega
      · -- What was handed on has no port any more.
        rw [hp.apart x _ d d' hd hd' (by rw [heq, heq', hport]), hnone'] at hx
        cases hx
      · rw [hp.apart x _ d d' hd hd' (by rw [heq, heq', hport]), hnone'] at hx
        cases hx
    · rcases crew_step hasShard hstep hy with ⟨d', hd', heq'⟩ | ⟨r', top', hread, hyr, -, -⟩ |
        ⟨_, _, _, hread, _⟩ | ⟨_, _, hread, _⟩
      · have hle := top_of_alone hp ha hmax hd'
        omega
      · rw [HubEvent.read.injEq] at hread
        rw [hxr, hyr, hread]
      · cases hread
      · cases hread
    · rcases crew_step hasShard hstep hy with ⟨d', hd', heq'⟩ | ⟨_, _, hread, _⟩ |
        ⟨_, _, _, _, hyn, _⟩ | ⟨_, _, hread, _⟩
      · rw [hp.apart y _ d' d hd' hd (by rw [heq, heq', hport]), hnone] at hy
        cases hy
      · cases hread
      · rw [hxn, hyn, hport]
      · cases hread
    · rcases crew_step hasShard hstep hy with ⟨d', hd', heq'⟩ | ⟨_, _, hread, _⟩ |
        ⟨_, _, _, hread, _⟩ | ⟨r', _, hread, hyr, _⟩
      · rw [hp.apart y _ d' d hd' hd (by rw [heq, heq', hport]), hnone] at hy
        cases hy
      · cases hread
      · cases hread
      · rw [HubEvent.remove.injEq] at hread
        rw [hxr, hyr, hread]

/-- A request that registers a node with a port of its own takes no place. -/
theorem clear_of_placed (hp : h.Placed) : h.Clear e := by
  cases e with
  | advance r exc =>
      intro plan axl whisper ha q hq
      -- A node with the port of the request would be that request.
      cases hn : h.crew (.node plan.port) with
      | none =>
          rw [keeps, hn] at hq
          exact absurd hq List.not_mem_nil
      | some c =>
          have hsame := hp.apart _ _ _ _ (crew_request r ha) hn (dynamic_of_crew hn).2.symm
          cases hsame
  | _ => trivial

end Hub

/-! ## What the processes have been started with -/

/-- The numbers of a plan belong to its port. -/
def Plan.Drawn (plan : Plan) : Prop :=
  plan.num = plan.port - 8887 ∧ plan.axlApiPort = 9001 + plan.num

def Plan.axlCommand (plan : Plan) : Command := .axl plan.num (some plan.axlApiPort)

namespace Hub

variable (hasShard : Int → Bool) {h h' : Hub} {e : HubEvent}

/-- The processes of a node, the AXL node first, have been started by the plan. -/
def Crewed (h : Hub) (plan : Plan) : List Nat → Prop
  | [] => True
  | [axl] => h.launched[axl]? = some plan.axlCommand
  | [axl, whisper] => h.launched[axl]? = some plan.axlCommand ∧
      h.launched[whisper]? = some (.whisper plan)
  | _ => False

theorem Crewed.of_launched {d : Hub} {plan : Plan} {procs : List Nat} (hc : h.Crewed plan procs)
    (hlaunched : ∀ (q : Nat) (c : Command), h.launched[q]? = some c → d.launched[q]? = some c) :
    d.Crewed plan procs := by
  match procs, hc with
  | [], _ => trivial
  | [_], hc => exact hlaunched _ _ hc
  | [_, _], hc => exact ⟨hlaunched _ _ hc.1, hlaunched _ _ hc.2⟩

theorem Crewed.mem {plan : Plan} {procs : List Nat} (hc : h.Crewed plan procs) {q : Nat}
    (hq : q ∈ procs) :
    h.launched[q]? = some plan.axlCommand ∨ h.launched[q]? = some (.whisper plan) := by
  match procs, hc with
  | [axl], hc => exact Or.inl ((List.mem_singleton.mp hq) ▸ hc)
  | [axl, whisper], hc =>
      rcases List.mem_cons.mp hq with rfl | hq
      · exact Or.inl hc.1
      · exact Or.inr ((List.mem_singleton.mp hq) ▸ hc.2)

/-- Telling the whisper node first leaves the AXL node. -/
theorem Crewed.of_concat {plan : Plan} {procs : List Nat} {q : Nat}
    (hc : h.Crewed plan (procs ++ [q])) : h.Crewed plan procs := by
  match procs, hc with
  | [], _ => trivial
  | [_], hc => exact hc.1
  | [_, _], hc => cases hc
  | _ :: _ :: _ :: _, hc => cases hc

/-- The configuration files and the processes fit the plans of the nodes. -/
structure Fitted (h : Hub) : Prop where
  cfg : ∀ n apiPort, h.axlCfg.get? n = some apiPort → apiPort = 9001 + n
  adding : ∀ r a, h.adding.get? r = some a → a.plan.Drawn ∧
    (a.stage ≠ .planned → ∃ apiPort, h.axlCfg.get? a.plan.num = some apiPort) ∧
    h.Crewed a.plan a.stage.procs
  nodes : ∀ port procs, h.dynamicProcs.get? port = some procs →
    ∃ plan : Plan, plan.port = port ∧ plan.Drawn ∧ h.Crewed plan [procs.1, procs.2]
  removing : ∀ r m, h.removing.get? r = some m →
    ∃ plan : Plan, plan.port = m.port ∧ plan.Drawn ∧ h.Crewed plan m.procs.reverse

section Fitted

variable {r : Nat} {plan : Plan} {stage : SpawnStage}

theorem Fitted.goOn (hf : h.Fitted) (hplan : plan.Drawn)
    (hcfg : stage ≠ .planned → ∃ apiPort, h.axlCfg.get? plan.num = some apiPort)
    (hcrew : h.Crewed plan stage.procs) : (h.goOn r plan stage).Fitted where
  cfg := hf.cfg
  adding r' a ha := by
    rw [Hub.goOn, Dict.get?_set] at ha
    split at ha
    · rw [← Option.some.inj ha]
      exact ⟨hplan, hcfg, hcrew⟩
    · exact hf.adding r' a ha
  nodes := hf.nodes
  removing := hf.removing

theorem Fitted.giveUp (hf : h.Fitted) (answer : NodeReply) : (h.giveUp r answer).Fitted where
  cfg := hf.cfg
  adding r' a ha := by
    by_cases hr : r' = r
    · rw [Hub.giveUp, hr, Dict.get?_erase_self] at ha
      cases ha
    · rw [Hub.giveUp, Dict.get?_erase_of_ne _ _ _ hr] at ha
      exact hf.adding r' a ha
  nodes := hf.nodes
  removing := hf.removing

theorem launched_launch (cmd : Command) (q : Nat) (c : Command) (hq : h.launched[q]? = some c) :
    (h.launch cmd).launched[q]? = some c := by
  rw [launch, List.getElem?_append_left (List.getElem?_eq_some_iff.mp hq).1]
  exact hq

theorem Fitted.launch (hf : h.Fitted) (cmd : Command) : (h.launch cmd).Fitted where
  cfg := hf.cfg
  adding r' a ha := by
    rcases hf.adding r' a ha with ⟨hplan, hcfg, hcrew⟩
    exact ⟨hplan, hcfg, Crewed.of_launched hcrew (launched_launch cmd)⟩
  nodes port procs hn := by
    rcases hf.nodes port procs hn with ⟨plan, hport, hplan, hcrew⟩
    exact ⟨plan, hport, hplan, Crewed.of_launched hcrew (launched_launch cmd)⟩
  removing r' m hr := by
    rcases hf.removing r' m hr with ⟨plan, hport, hplan, hcrew⟩
    exact ⟨plan, hport, hplan, Crewed.of_launched hcrew (launched_launch cmd)⟩

/-- The file of a plan is there after `configure`, with the port of the plan if it is new. -/
theorem Fitted.configure (hf : h.Fitted) (hplan : plan.Drawn) :
    (h.configure plan).Fitted ∧
      ∃ apiPort, (h.configure plan).axlCfg.get? plan.num = some apiPort := by
  cases hn : h.axlCfg.get? plan.num with
  | some apiPort =>
      have hsame : h.configure plan = h := by
        rw [Hub.configure, hn]
        rfl
      exact ⟨hsame.symm ▸ hf, apiPort, hsame.symm ▸ hn⟩
  | none =>
      have hcfg : (h.configure plan).axlCfg = h.axlCfg.set plan.num plan.axlApiPort := by
        rw [Hub.configure, hn]
        rfl
      refine ⟨⟨fun n apiPort hget => ?_, fun r' a ha => ?_, hf.nodes, hf.removing⟩,
        plan.axlApiPort, by rw [hcfg, Dict.get?_set_self]⟩
      · rw [hcfg, Dict.get?_set] at hget
        split at hget
        · rename_i heq
          rw [← Option.some.inj hget, heq, hplan.2]
        · exact hf.cfg n apiPort hget
      · rcases hf.adding r' a ha with ⟨hplan', hready, hcrew⟩
        refine ⟨hplan', fun hstage => ?_, hcrew⟩
        rcases hready hstage with ⟨apiPort, hget⟩
        rw [hcfg, Dict.get?_set]
        split
        · exact ⟨_, rfl⟩
        · exact ⟨apiPort, hget⟩

end Fitted

theorem fitted_step (hf : h.Fitted) (hstep : h.step hasShard e = some h') : h'.Fitted := by
  cases act_of_step hasShard hstep with
  | refused r answer => exact ⟨hf.cfg, hf.adding, hf.nodes, hf.removing⟩
  | planned r top hr hmax =>
      exact hf.goOn ⟨rfl, rfl⟩ (fun hc => absurd rfl hc) trivial
  | configured r plan ha =>
      have hplan := (hf.adding r _ ha).1
      rcases hf.configure hplan with ⟨hf', hget⟩
      exact hf'.goOn hplan (fun _ => hget) trivial
  | keyed r plan ha =>
      rcases hf.adding r _ ha with ⟨hplan, hget, -⟩
      exact hf.goOn hplan (fun _ => hget (fun hc => by cases hc)) trivial
  | failed r plan stage exc answer ha hprocs => exact hf.giveUp answer
  | axl r plan ha =>
      rcases hf.adding r _ ha with ⟨hplan, hget, -⟩
      rcases hget (fun hc => by cases hc) with ⟨apiPort, hport⟩
      refine (hf.launch _).goOn hplan (fun _ => ⟨apiPort, hport⟩) ?_
      -- What stands in the file is the port of the plan.
      have hread : h.axlCfg.get? plan.num = some plan.axlApiPort := by
        rw [hport, hf.cfg _ _ hport, hplan.2]
      change (h.launched ++ [_])[h.launched.length]? = _
      rw [List.getElem?_concat_length, hread]
      rfl
  | whisper r plan axl ha =>
      rcases hf.adding r _ ha with ⟨hplan, hget, hcrew⟩
      refine (hf.launch _).goOn hplan (fun _ => hget (fun hc => by cases hc))
        ⟨launched_launch _ _ _ hcrew, ?_⟩
      exact List.getElem?_concat_length
  | dropped r plan axl exc answer ha =>
      exact Fitted.giveUp (h := h.tell axl) ⟨hf.cfg, hf.adding, hf.nodes, hf.removing⟩ answer
  | registered r plan axl whisper answer ha =>
      rcases hf.adding r _ ha with ⟨hplan, -, hcrew⟩
      refine Fitted.giveUp (h := h.register plan axl whisper)
        ⟨hf.cfg, hf.adding, fun port procs hn => ?_, hf.removing⟩ answer
      rw [register, Dict.get?_set] at hn
      split at hn
      · rename_i heq
        rw [← Option.some.inj hn]
        exact ⟨plan, heq.symm, hplan, hcrew⟩
      · exact hf.nodes port procs hn
  | nothing r answer hmax => exact ⟨hf.cfg, hf.adding, hf.nodes, hf.removing⟩
  | taken r port hr hmax =>
      rcases takeOut_eq r hmax with ⟨axl, whisper, hprocs, htake⟩
      rw [htake]
      refine ⟨hf.cfg, hf.adding, fun port' procs hn => ?_, fun r' m hm => ?_⟩
      · by_cases heq : port' = port
        · rw [heq, Dict.get?_erase_self] at hn
          cases hn
        · rw [Dict.get?_erase_of_ne _ _ _ heq] at hn
          exact hf.nodes port' procs hn
      · rw [Dict.get?_set] at hm
        split at hm
        · rw [← Option.some.inj hm]
          exact hf.nodes port _ hprocs
        · exact hf.removing r' m hm
  | told r port total proc procs hr =>
      refine ⟨hf.cfg, hf.adding, hf.nodes, fun r' m hm => ?_⟩
      rw [Dict.get?_set] at hm
      split at hm
      · rcases hf.removing r _ hr with ⟨plan, hport, hplan, hcrew⟩
        rw [← Option.some.inj hm]
        rw [List.reverse_cons] at hcrew
        exact ⟨plan, hport, hplan, Crewed.of_concat hcrew⟩
      · exact hf.removing r' m hm
  | removed r port total answer hr =>
      refine ⟨hf.cfg, hf.adding, hf.nodes, fun r' m hm => ?_⟩
      by_cases heq : r' = r
      · rw [heq, Dict.get?_erase_self] at hm
        cases hm
      · rw [Dict.get?_erase_of_ne _ _ _ heq] at hm
        exact hf.removing r' m hm
  | exited proc hp => exact ⟨hf.cfg, hf.adding, hf.nodes, hf.removing⟩
  | polled => exact ⟨hf.cfg, hf.adding, hf.nodes, hf.removing⟩
  | same state port todo htodo hsame => exact ⟨hf.cfg, hf.adding, hf.nodes, hf.removing⟩
  | stored state port todo htodo hnew => exact ⟨hf.cfg, hf.adding, hf.nodes, hf.removing⟩

/-- The processes of a keeper have been started by one plan, with its port. -/
theorem Fitted.crew (hf : h.Fitted) {x : Keeper} {c : Nat × List Nat} (hx : h.crew x = some c) :
    ∃ (plan : Plan) (procs : List Nat), plan.port = c.1 ∧ plan.Drawn ∧ h.Crewed plan procs ∧
      ∀ q, q ∈ procs ↔ q ∈ c.2 := by
  cases x with
  | request r =>
      rw [Hub.crew, Option.map_eq_some_iff] at hx
      rcases hx with ⟨a, ha, rfl⟩
      rcases hf.adding r a ha with ⟨hplan, -, hcrew⟩
      exact ⟨a.plan, _, rfl, hplan, hcrew, fun q => Iff.rfl⟩
  | node port =>
      rw [Hub.crew, Option.map_eq_some_iff] at hx
      rcases hx with ⟨procs, hn, rfl⟩
      rcases hf.nodes port procs hn with ⟨plan, hport, hplan, hcrew⟩
      exact ⟨plan, _, hport, hplan, hcrew, fun q => Iff.rfl⟩
  | removal r =>
      rw [Hub.crew, Option.map_eq_some_iff] at hx
      rcases hx with ⟨m, hm, rfl⟩
      rcases hf.removing r m hm with ⟨plan, hport, hplan, hcrew⟩
      exact ⟨plan, _, hport, hplan, hcrew, fun q => List.mem_reverse⟩

/-- The number of a process is that of its plan. -/
theorem num_of_launched {plan : Plan} {q : Nat} {c : Command}
    (hq : h.launched[q]? = some plan.axlCommand ∨ h.launched[q]? = some (.whisper plan))
    (hc : h.launched[q]? = some c) : c.num = plan.num := by
  rcases hq with hq | hq
  · rw [Option.some.inj (hc.symm.trans hq)]
    rfl
  · rw [Option.some.inj (hc.symm.trans hq)]
    rfl

theorem crew_of_keeps {x : Keeper} {q : Nat} (hq : q ∈ h.keeps x) :
    ∃ c, h.crew x = some c ∧ q ∈ c.2 := by
  cases hx : h.crew x with
  | none =>
      rw [keeps, hx] at hq
      exact absurd hq List.not_mem_nil
  | some c =>
      rw [keeps, hx] at hq
      exact ⟨c, rfl, hq⟩

/-! ## No number is shared -/

theorem mem_alive {q : Nat} : q ∈ h.alive ↔ q ∈ h.running ∨ q ∈ h.told := List.mem_append

/-- A process that is told to terminate has not ended. -/
theorem mem_alive_tell (proc q : Nat) : q ∈ (h.tell proc).alive ↔ q ∈ h.alive := by
  rw [mem_alive, mem_alive, mem_running_tell, tell, List.mem_append, List.mem_filter,
    decide_eq_true_eq]
  by_cases hq : q = proc
  · simp only [hq, ne_eq, not_true_eq_false, and_false, and_true, false_or, or_comm]
  · simp only [hq, ne_eq, not_false_eq_true, and_true, and_false, or_false]

theorem alive_of_quit {proc q : Nat} (hq : q ∈ (h.quit proc).alive) : q ∈ h.alive := by
  rw [mem_alive, mem_running_quit, quit, List.mem_filter] at hq
  exact mem_alive.mpr (hq.imp And.left And.left)

theorem alive_of_launch (cmd : Command) {q : Nat} (hq : q ∈ (h.launch cmd).alive) :
    q ∈ h.alive ∨ q = h.launched.length := by
  rw [mem_alive, launch, List.mem_append, List.mem_singleton] at hq
  rw [mem_alive]
  rcases hq with (hrun | hnew) | htold
  · exact Or.inl (Or.inl hrun)
  · exact Or.inr hnew
  · exact Or.inl (Or.inr htold)

/-- Every process that has not ended has a number of its own among those of its kind, and
    the number of a request for a new node is that of its own processes only. -/
structure Unshared (base : List Nat) (h : Hub) : Prop where
  above : ∀ q ∈ h.alive, ∃ plan : Plan, (∀ port ∈ base, port < plan.port) ∧ plan.Drawn ∧
    (h.launched[q]? = some plan.axlCommand ∨ h.launched[q]? = some (.whisper plan))
  unused : ∀ r a, h.adding.get? r = some a → ∀ q ∈ h.alive, ∀ c, h.launched[q]? = some c →
    c.num = a.plan.num → q ∈ a.stage.procs
  apart : ∀ q ∈ h.alive, ∀ q' ∈ h.alive, ∀ c c', h.launched[q]? = some c →
    h.launched[q']? = some c' → c.isWhisper = c'.isWhisper → c.num = c'.num → q = q'

section Unshared

variable {base : List Nat} {r : Nat} {plan : Plan} {stage : SpawnStage}

/-- Nothing is shared where no process is new and the requests have what they had. -/
theorem Unshared.fewer {d : Hub} (hu : h.Unshared base) (halive : ∀ q ∈ d.alive, q ∈ h.alive)
    (hlaunched : d.launched = h.launched)
    (hadding : ∀ r a, d.adding.get? r = some a → ∃ a', h.adding.get? r = some a' ∧
      a'.plan = a.plan ∧ a'.stage.procs = a.stage.procs) : d.Unshared base where
  above q hq := hlaunched.symm ▸ hu.above q (halive q hq)
  unused r a ha q hq c hc hnum := by
    rcases hadding r a ha with ⟨a', ha', hplan, hprocs⟩
    rw [hlaunched] at hc
    rw [← hplan] at hnum
    exact hprocs ▸ hu.unused r a' ha' q (halive q hq) c hc hnum
  apart q hq q' hq' c c' hc hc' := by
    rw [hlaunched] at hc hc'
    exact hu.apart q (halive q hq) q' (halive q' hq') c c' hc hc'

/-- A request goes on with the processes it has. -/
theorem Unshared.goOn (hu : h.Unshared base) {old : SpawnStage}
    (ha : h.adding.get? r = some ⟨plan, old⟩) (hprocs : old.procs = stage.procs) :
    (h.goOn r plan stage).Unshared base := by
  refine hu.fewer (fun q hq => hq) rfl (fun r' a ha' => ?_)
  rw [Hub.goOn, Dict.get?_set] at ha'
  split at ha'
  · rename_i hr
    rw [← Option.some.inj ha', hr]
    exact ⟨_, ha, rfl, hprocs⟩
  · exact ⟨a, ha', rfl, rfl⟩

theorem Unshared.giveUp (hu : h.Unshared base) (answer : NodeReply) :
    (h.giveUp r answer).Unshared base := by
  refine hu.fewer (fun q hq => hq) rfl (fun r' a ha' => ?_)
  by_cases hr : r' = r
  · rw [Hub.giveUp, hr, Dict.get?_erase_self] at ha'
    cases ha'
  · rw [Hub.giveUp, Dict.get?_erase_of_ne _ _ _ hr] at ha'
    exact ⟨a, ha', rfl, rfl⟩

theorem Unshared.tell (hu : h.Unshared base) (proc : Nat) : (h.tell proc).Unshared base :=
  hu.fewer (fun q hq => (mem_alive_tell proc q).mp hq) rfl (fun _ a ha => ⟨a, ha, rfl, rfl⟩)

/-- What has been started has been started before, or just now. -/
theorem launched_cases {cmd c : Command} {q : Nat} (hq : (h.launched ++ [cmd])[q]? = some c) :
    h.launched[q]? = some c ∨ q = h.launched.length ∧ c = cmd := by
  rcases Nat.lt_or_ge q h.launched.length with hlt | hge
  · exact Or.inl ((List.getElem?_append_left hlt).symm.trans hq)
  · rw [List.getElem?_append_right hge, List.getElem?_singleton] at hq
    split at hq
    · exact Or.inr ⟨by omega, (Option.some.inj hq).symm⟩
    · cases hq

/-- The only request starts a process of its number, of a kind it has not got yet. -/
theorem Unshared.launch (hu : h.Unshared base) {old : SpawnStage} {cmd : Command}
    (ha : h.adding.get? r = some ⟨plan, old⟩)
    (honly : ∀ r' a, h.adding.get? r' = some a → r' = r) (hbase : ∀ port ∈ base, port < plan.port)
    (hplan : plan.Drawn) (hcmd : cmd = plan.axlCommand ∨ cmd = .whisper plan)
    (hkind : ∀ q ∈ old.procs, ∀ c, h.launched[q]? = some c → c.isWhisper ≠ cmd.isWhisper)
    (hprocs : stage.procs = old.procs ++ [h.launched.length]) :
    ((h.launch cmd).goOn r plan stage).Unshared base := by
  have hnew : (h.launched ++ [cmd])[h.launched.length]? = some cmd := List.getElem?_concat_length
  have hnum : cmd.num = plan.num := by
    rcases hcmd with rfl | rfl
    · rfl
    · rfl
  have hcase : ∀ q ∈ (h.launch cmd).alive, ∀ c, (h.launch cmd).launched[q]? = some c →
      (q ∈ h.alive ∧ h.launched[q]? = some c) ∨ q = h.launched.length ∧ c = cmd := by
    intro q hq c hc
    rcases launched_cases hc with hold | hnew
    · refine (alive_of_launch cmd hq).imp (fun halive => ⟨halive, hold⟩) (fun heq => ?_)
      have hlt := (List.getElem?_eq_some_iff.mp hold).1
      omega
    · exact Or.inr hnew
  -- An older process with the number is one of the request, and of the other kind.
  have hother : ∀ q ∈ h.alive, ∀ c, h.launched[q]? = some c → c.isWhisper = cmd.isWhisper →
      c.num ≠ cmd.num := fun q hq c hc hsame heq =>
    hkind q (hu.unused r _ ha q hq c hc (heq.trans hnum)) c hc hsame
  refine ⟨fun q hq => ?_, fun r' a ha' q hq c hc heq => ?_,
    fun q hq q' hq' c c' hc hc' hsame heq => ?_⟩
  · rcases alive_of_launch cmd hq with hold | rfl
    · rcases hu.above q hold with ⟨plan', hbase', hplan', hmade⟩
      exact ⟨plan', hbase', hplan', hmade.imp (launched_launch cmd q _) (launched_launch cmd q _)⟩
    · refine ⟨plan, hbase, hplan, hcmd.imp (fun heq => ?_) (fun heq => ?_)⟩
      · exact heq ▸ hnew
      · exact heq ▸ hnew
  · rw [Hub.goOn, Dict.get?_set] at ha'
    split at ha'
    · rw [← Option.some.inj ha'] at heq ⊢
      rw [hprocs, List.mem_append, List.mem_singleton]
      exact (hcase q hq c hc).imp (fun hold => hu.unused r _ ha q hold.1 c hold.2 heq) And.left
    · rename_i hr
      exact absurd (honly r' a ha') hr
  · rcases hcase q hq c hc with ⟨hold, hcold⟩ | ⟨rfl, rfl⟩
    · rcases hcase q' hq' c' hc' with ⟨hold', hcold'⟩ | ⟨rfl, rfl⟩
      · exact hu.apart q hold q' hold' c c' hcold hcold' hsame heq
      · exact absurd heq (hother q hold c hcold hsame)
    · rcases hcase q' hq' c' hc' with ⟨hold', hcold'⟩ | ⟨rfl, -⟩
      · exact absurd heq.symm (hother q' hold' c' hcold' hsame.symm)
      · rfl

/-- A request that reads the ports alone takes a number that no process has. -/
theorem Unshared.planned (hu : h.Unshared base) (hp : h.Placed) (hf : h.Fitted)
    (hkept : ∀ q ∈ h.running, ∃ x, q ∈ h.keeps x) (ha : h.Alone (.read r)) {top : Nat}
    (hmax : h.nodeStates.keys.max? = some top) :
    (h.goOn r (nodePlan hasShard h.nodeStates.keys top) .planned).Unshared base := by
  refine ⟨hu.above, fun r' a ha' q hq c hc hnum => ?_, hu.apart⟩
  rw [Hub.goOn, Dict.get?_set] at ha'
  split at ha'
  · rw [← Option.some.inj ha'] at hnum
    have hrun : q ∈ h.running := (mem_alive.mp hq).resolve_right (by
      change q ∉ h.told
      rw [ha.2.2]
      exact List.not_mem_nil)
    rcases hkept q hrun with ⟨x, hx⟩
    rcases crew_of_keeps hx with ⟨d, hd, hmem⟩
    rcases hf.crew hd with ⟨plan, procs, hport, hplan, hcrew, hprocs⟩
    have htop := top_of_alone hp ha hmax hd
    -- Its port is one of those that were read, and the new one is higher.
    rw [num_of_launched (hcrew.mem ((hprocs q).mpr hmem)) hc, hplan.1, hport] at hnum
    change (d.1 : Int) - 8887 = ((top + 1 : Nat) : Int) - 8887 at hnum
    omega
  · rw [get?_of_keys_nil ha.1] at ha'
    cases ha'

/-- Two requests never have planned a node each. -/
theorem Placed.only (hp : h.Placed) {a a' : Adding} (ha : h.adding.get? r = some a) {r' : Nat}
    (ha' : h.adding.get? r' = some a') : r' = r := by
  by_contra hne
  have hbelow := hp.top r _ _ _ (crew_request r ha) (fun hc => hne (Keeper.request.inj hc))
    (crew_request r' ha')
  have habove := hp.top r' _ _ _ (crew_request r' ha')
    (fun hc => hne (Keeper.request.inj hc).symm) (crew_request r ha)
  exact Nat.lt_asymm hbelow habove

end Unshared

theorem unshared_step {base : List Nat} (hu : h.Unshared base) (hb : h.Based base) (hp : h.Placed)
    (hf : h.Fitted) (hkept : ∀ q ∈ h.running, ∃ x, q ∈ h.keeps x) (ha : h.Alone e)
    (hstep : h.step hasShard e = some h') : h'.Unshared base := by
  have hsame : ∀ {d : Hub}, d.alive = h.alive → d.launched = h.launched → d.adding = h.adding →
      d.Unshared base := fun halive hlaunched hadding =>
    hu.fewer (fun q hq => halive ▸ hq) hlaunched (fun r a ha => ⟨a, hadding ▸ ha, rfl, rfl⟩)
  cases act_of_step hasShard hstep with
  | refused r answer => exact hsame rfl rfl rfl
  | planned r top hr hmax => exact hu.planned hasShard hp hf hkept ha hmax
  | configured r plan hadd =>
      exact Unshared.goOn (h := h.configure plan) (hsame rfl rfl rfl) hadd rfl
  | keyed r plan hadd => exact hu.goOn hadd rfl
  | failed r plan stage exc answer hadd hprocs => exact hu.giveUp answer
  | axl r plan hadd =>
      rcases hf.adding r _ hadd with ⟨hplan, hget, -⟩
      -- The config file has been written by now, so the process has its number.
      rcases hget (fun hc => by cases hc) with ⟨apiPort, hport⟩
      refine hu.launch hadd (fun r' a ha' => hp.only hadd ha')
        (hb.above _ _ (crew_request r hadd)) hplan (Or.inl ?_)
        (fun q hq => absurd hq List.not_mem_nil) rfl
      rw [hport, hf.cfg _ _ hport, ← hplan.2]
      rfl
  | whisper r plan axl hadd =>
      rcases hf.adding r _ hadd with ⟨hplan, -, hcrew⟩
      refine hu.launch hadd (fun r' a ha' => hp.only hadd ha')
        (hb.above _ _ (crew_request r hadd)) hplan (Or.inr rfl) (fun q hq c hc => ?_) rfl
      -- The other process of the plan is an AXL node, and shares no file with a whisper node.
      rw [List.mem_singleton.mp hq] at hc
      rw [← Option.some.inj ((hcrew : h.launched[axl]? = _).symm.trans hc)]
      exact Bool.false_ne_true
  | dropped r plan axl exc answer hadd => exact (hu.tell axl).giveUp answer
  | registered r plan axl whisper answer hadd =>
      exact Unshared.giveUp (h := h.register plan axl whisper) (hsame rfl rfl rfl) answer
  | nothing r answer hmax => exact hsame rfl rfl rfl
  | taken r port hr hmax =>
      rcases takeOut_eq r hmax with ⟨axl, whisper, -, htake⟩
      rw [htake]
      exact hsame rfl rfl rfl
  | told r port total proc procs hr =>
      -- A process that is told to end still has its number, until it exits.
      exact (hu.tell proc).fewer (fun q hq => hq) rfl (fun r a ha => ⟨a, ha, rfl, rfl⟩)
  | removed r port total answer hr => exact hsame rfl rfl rfl
  | exited proc hq =>
      exact hu.fewer (fun q hq => alive_of_quit hq) rfl (fun r a ha => ⟨a, ha, rfl, rfl⟩)
  | polled => exact hsame rfl rfl rfl
  | same state port todo htodo hsame' => exact hsame rfl rfl rfl
  | stored state port todo htodo hnew => exact hsame rfl rfl rfl

/-! ## The nodes that the web UI has started -/

/-- What holds of the nodes if requests come one at a time. `above` says by which plan a
    process that has not ended has been started, and `apart` that no two of a kind have the
    same number, and so neither the same ports nor the same files. -/
structure Orderly (base : List Nat) (h : Hub) : Prop where
  kept : ∀ q ∈ h.running, ∃ x, q ∈ h.keeps x
  known : ∀ port ∈ base, h.Registered port
  nodes : ∀ port axl whisper, h.dynamicProcs.get? port = some (axl, whisper) →
    h.Registered port ∧ ∃ plan : Plan, plan.port = port ∧ plan.Drawn ∧
      h.launched[axl]? = some plan.axlCommand ∧ h.launched[whisper]? = some (.whisper plan)
  above : ∀ q ∈ h.alive, ∃ plan : Plan, (∀ port ∈ base, port < plan.port) ∧ plan.Drawn ∧
    (h.launched[q]? = some plan.axlCommand ∨ h.launched[q]? = some (.whisper plan))
  apart : ∀ q ∈ h.alive, ∀ q' ∈ h.alive, ∀ c c', h.launched[q]? = some c →
    h.launched[q']? = some c' → c.isWhisper = c'.isWhisper → c.num = c'.num → q = q'

theorem orderly_of {base : List Nat} (hkept : ∀ q ∈ h.running, ∃ x, q ∈ h.keeps x)
    (hb : h.Based base) (hp : h.Placed) (hf : h.Fitted) (hu : h.Unshared base) :
    h.Orderly base where
  kept := hkept
  known := hb.known
  nodes port axl whisper hn := by
    rcases hf.nodes port _ hn with ⟨plan, hport, hplan, hcrew⟩
    exact ⟨hp.listed port ⟨_, hn⟩, plan, hport, hplan, hcrew⟩
  above := hu.above
  apart := hu.apart

theorem unshared_start (ports : List Nat) (axlCfg : Dict Int Int) :
    (start ports axlCfg).Unshared ports where
  above q hq := absurd hq List.not_mem_nil
  unused r a ha := by cases ha
  apart q hq := absurd hq List.not_mem_nil

theorem placed_start (ports : List Nat) (axlCfg : Dict Int Int) :
    (start ports axlCfg).Placed where
  top r c x c' hr := by
    rw [crew_start] at hr
    cases hr
  apart x y c c' hx := by
    rw [crew_start] at hx
    cases hx
  listed port hd := by
    rcases hd with ⟨procs, hprocs⟩
    cases hprocs

theorem fitted_start (ports : List Nat) {axlCfg : Dict Int Int}
    (hcfg : ∀ n apiPort, axlCfg.get? n = some apiPort → apiPort = 9001 + n) :
    (start ports axlCfg).Fitted where
  cfg := hcfg
  adding r a ha := by cases ha
  nodes port procs hn := by cases hn
  removing r m hr := by cases hr

/-- If the web UI starts with the configuration files of `run_local.sh`, and requests for
    new nodes only read the ports while no other request is under way and no process that
    was told to terminate is left, then in every state it reaches no process is lost, the
    registered nodes run what they should, every process that has not ended listens on the
    ports of its number, and no two of a kind have the same number. -/
theorem nodes_orderly (ports : List Nat) (axlCfg : Dict Int Int)
    (hcfg : ∀ n apiPort, axlCfg.get? n = some apiPort → apiPort = 9001 + n)
    (es : List HubEvent)
    (halone : Machine.Along (step hasShard) Alone (start ports axlCfg) es) {t : Hub}
    (hrun : Machine.run (step hasShard) (start ports axlCfg) es = some t) : t.Orderly ports := by
  have hinv := Machine.invariant_run (step hasShard)
    (fun h => (h.Sane ∧ ∀ q ∈ h.running, ∃ x, q ∈ h.keeps x) ∧ h.Based ports ∧ h.Placed ∧
      h.Fitted ∧ h.Unshared ports) Alone ?_
    ⟨⟨sane_start ports axlCfg, fun q hq => absurd hq List.not_mem_nil⟩, based_start ports axlCfg,
      placed_start ports axlCfg, fitted_start ports hcfg, unshared_start ports axlCfg⟩ halone hrun
  · rcases hinv with ⟨⟨-, hkept⟩, hb, hp, hf, hu⟩
    exact orderly_of hkept hb hp hf hu
  · rintro h e h' ⟨⟨hs, hkept⟩, hb, hp, hf, hu⟩ ha hstep
    refine ⟨⟨sane_step hasShard hs hstep, ?_⟩, based_step hasShard hb hstep,
      placed_step hasShard hp ha hstep, fitted_step hasShard hf hstep,
      unshared_step hasShard hu hb hp hf hkept ha hstep⟩
    exact (kept_step_iff hasShard hs hkept hstep).mpr (clear_of_placed hp)

/-- Two nodes are polled, two more come and one of them goes, and after the end of its
    processes another one gets its number. -/
def comeAndGo : List HubEvent :=
  [.poll, .read 0] ++ List.replicate 5 (.advance 0 none) ++ [.answer none, .answer none, .read 0] ++
    List.replicate 5 (.advance 0 none) ++ [.remove 0, .exit 1, .terminate 0, .terminate 0,
      .terminate 0, .exit 3, .exit 2, .read 0] ++ List.replicate 5 (.advance 0 none)

theorem comeAndGo_orderly :
    ((Machine.run (step (fun _ => true))
      (start [8888, 8889] ((Dict.empty.set 1 9002).set 2 9003)) comeAndGo).get
        (by decide)).Orderly [8888, 8889] := by
  refine nodes_orderly (fun _ => true) [8888, 8889] ((Dict.empty.set 1 9002).set 2 9003)
    (fun n apiPort hget => ?_) comeAndGo (by decide) (Option.some_get _).symm
  rw [Dict.get?_set, Dict.get?_set, Dict.get?_empty] at hget
  split at hget
  · rw [← Option.some.inj hget]
    omega
  · split at hget
    · rw [← Option.some.inj hget]
      omega
    · cases hget

end Hub

end WhisperNet
