import Mathlib.Logic.Basic

/-!
# Event-Driven Machines

Runs of a system given by a partial step function `σ → ε → Option σ`: a state,
an event, and the state afterwards, or nothing where the event is not possible.
A run is a list of events. Nondeterminism lives in the choice of the events,
so a run can be evaluated, and a statement about every run is a statement
about every list.

Two predicates say something about a whole run. `Throughout P` holds when every
state the run visits satisfies `P`, the first and the last included. `Along ok`
holds when every step the run takes satisfies `ok`, which sees the event and
the state before it. `throughout_of_along` is the invariant rule: what every
allowed step preserves holds throughout. `throughout_iff_along` is its exact
form, for a step condition that characterises preservation: then the run keeps
the property if and only if all its steps meet the condition.

## Main definitions

* `run`: The state after a list of events.
* `Throughout`: Every state visited satisfies a predicate.
* `Along`: Every step taken satisfies a condition on its source and event.
* `decidableAlong`: Checking such a condition on a run.
* `emitted`: What the steps of a run hand out, in order.

## Theorems

* `throughout_of_along`: The invariant rule.
* `throughout_iff_along`: The invariant rule for an exact step condition.
* `throughout_iff_along_of_fair`: The same for runs with fair steps only.
* `throughout_congr_along`, `throughout_congr`: Predicates that agree under an
  invariant.
* `Throughout.last`: What holds throughout holds at the end.
* `Throughout.mono`: Weakening the predicate.
* `Along.mono`: Weakening the step condition.
* `along_and`: Two conditions at once.
* `along_of_forall`: A condition on the events alone.
* `along_of_invariant`: What an invariant makes of a step condition.
* `along_append`: Two runs, one after the other.
* `Along.of_append`, `Along.after`: The condition along a first part and the rest.
* `Along.at_last`: The condition read at the step after a run.
* `invariant_run`: The invariant rule read at the last state.
* `mem_log_run`: Where the entries of a log come from.
* `throughout_of_prefix`: From every part of a run to the run.
* `throughout_iff_last`: A property that no step brings back.
* `mem_emitted`: Where what a run hands out comes from.
* `exists_emitted`: What one event of a run handed out.
* `emitted_congr`: Events that hand out the same.
* `emitted_append`, `emitted_concat`: Two runs, one after the other, and one more step.
* `emitted_subset_append`: A longer run hands out more.
* `invariant_emitted`: The invariant rule for a state and what was handed out.
* `buffer_run`: A buffer hands out everything that enters it once and in order.
-/

namespace WhisperNet

namespace Machine

variable {σ ε : Type}

/-- The state after the events, or nothing if one of them is not possible. -/
def run (step : σ → ε → Option σ) : σ → List ε → Option σ
  | s, [] => some s
  | s, e :: es => (step s e).bind (fun s' => run step s' es)

/-- Every state the run visits satisfies `P`. -/
def Throughout (step : σ → ε → Option σ) (P : σ → Prop) : σ → List ε → Prop
  | s, [] => P s
  | s, e :: es => P s ∧ ∀ s', step s e = some s' → Throughout step P s' es

/-- Every step the run takes satisfies `ok`. -/
def Along (step : σ → ε → Option σ) (ok : σ → ε → Prop) : σ → List ε → Prop
  | _, [] => True
  | s, e :: es => ∀ s', step s e = some s' → ok s e ∧ Along step ok s' es

/-- A condition that can be checked at every step can be checked along a run. -/
instance decidableAlong (step : σ → ε → Option σ) (ok : σ → ε → Prop)
    [∀ s e, Decidable (ok s e)] : (s : σ) → (es : List ε) → Decidable (Along step ok s es)
  | _, [] => isTrue trivial
  | s, e :: es =>
    match h : step s e with
    | none => isTrue (fun _ hs => nomatch h.symm.trans hs)
    | some s' =>
      have := decidableAlong step ok s' es
      decidable_of_iff (ok s e ∧ Along step ok s' es)
        ⟨fun hok _ hs => Option.some.inj (h.symm.trans hs) ▸ hok, fun hok => hok s' h⟩

theorem Throughout.head {step : σ → ε → Option σ} {P : σ → Prop} {s : σ} {es : List ε}
    (h : Throughout step P s es) : P s := by
  cases es with
  | nil => exact h
  | cons e es => exact h.1

theorem Throughout.last {step : σ → ε → Option σ} {P : σ → Prop} {s t : σ} {es : List ε}
    (h : Throughout step P s es) (hr : run step s es = some t) : P t := by
  induction es generalizing s with
  | nil =>
      simp only [run, Option.some.injEq] at hr
      rw [← hr]
      exact h
  | cons e es ih =>
      rcases Option.bind_eq_some_iff.mp hr with ⟨s', hs, hrest⟩
      exact ih (h.2 s' hs) hrest

theorem Throughout.mono {step : σ → ε → Option σ} {P Q : σ → Prop} (hPQ : ∀ s, P s → Q s)
    {s : σ} {es : List ε} (h : Throughout step P s es) : Throughout step Q s es := by
  induction es generalizing s with
  | nil => exact hPQ s h
  | cons e es ih => exact ⟨hPQ s h.1, fun s' hs => ih (h.2 s' hs)⟩

theorem Along.mono {step : σ → ε → Option σ} {ok ok' : σ → ε → Prop}
    (himp : ∀ s e, ok s e → ok' s e) {s : σ} {es : List ε} (h : Along step ok s es) :
    Along step ok' s es := by
  induction es generalizing s with
  | nil => exact h
  | cons e es ih => exact fun s' hs => ⟨himp s e (h s' hs).1, ih (h s' hs).2⟩

/-- Two conditions along a run. -/
theorem along_and {step : σ → ε → Option σ} {ok ok' : σ → ε → Prop} {s : σ} {es : List ε}
    (h : Along step ok s es) (h' : Along step ok' s es) :
    Along step (fun s e => ok s e ∧ ok' s e) s es := by
  induction es generalizing s with
  | nil => trivial
  | cons e es ih =>
      exact fun s' hs => ⟨⟨(h s' hs).1, (h' s' hs).1⟩, ih (h s' hs).2 (h' s' hs).2⟩

/-- A condition that the events of a run meet in every state. -/
theorem along_of_forall (step : σ → ε → Option σ) (ok : σ → ε → Prop) (s : σ) (es : List ε)
    (h : ∀ e ∈ es, ∀ u, ok u e) : Along step ok s es := by
  induction es generalizing s with
  | nil => trivial
  | cons e es ih =>
      exact fun s' _ => ⟨h e (List.mem_cons_self ..) s,
        ih s' (fun e' he' => h e' (List.mem_cons_of_mem _ he'))⟩

/-- The invariant rule: what every allowed step preserves holds throughout a
    run whose steps are all allowed. -/
theorem throughout_of_along (step : σ → ε → Option σ) (P : σ → Prop) (ok : σ → ε → Prop)
    (hstep : ∀ s e s', P s → ok s e → step s e = some s' → P s')
    (s : σ) (es : List ε) (hs : P s) (hok : Along step ok s es) :
    Throughout step P s es := by
  induction es generalizing s with
  | nil => exact hs
  | cons e es ih =>
      refine ⟨hs, fun s' hse => ?_⟩
      rcases hok s' hse with ⟨hoke, hrest⟩
      exact ih s' (hstep s e s' hs hoke hse) hrest

/-- Steps that keep an invariant meet every condition that follows from it. -/
theorem along_of_invariant (step : σ → ε → Option σ) (P : σ → Prop) (ok ok' : σ → ε → Prop)
    (hstep : ∀ s e s', P s → ok s e → step s e = some s' → P s')
    (himp : ∀ s e s', P s → ok s e → step s e = some s' → ok' s e) (s : σ) (es : List ε)
    (hs : P s) (hok : Along step ok s es) : Along step ok' s es := by
  induction es generalizing s with
  | nil => trivial
  | cons e es ih =>
      intro s' hse
      rcases hok s' hse with ⟨hoke, hrest⟩
      exact ⟨himp s e s' hs hoke hse, ih s' (hstep s e s' hs hoke hse) hrest⟩

/-- A condition along two runs, one after the other. -/
theorem along_append {step : σ → ε → Option σ} {ok : σ → ε → Prop} {s : σ} {es fs : List ε}
    (h : Along step ok s es) (h' : ∀ t, run step s es = some t → Along step ok t fs) :
    Along step ok s (es ++ fs) := by
  induction es generalizing s with
  | nil => exact h' s rfl
  | cons e es ih =>
      intro s' hse
      rcases h s' hse with ⟨hoke, hrest⟩
      refine ⟨hoke, ih hrest (fun t ht => h' t ?_)⟩
      rw [run, hse]
      exact ht

/-- A condition along a run holds along every first part of it. -/
theorem Along.of_append {step : σ → ε → Option σ} {ok : σ → ε → Prop} {s : σ} {es fs : List ε}
    (h : Along step ok s (es ++ fs)) : Along step ok s es := by
  induction es generalizing s with
  | nil => trivial
  | cons e es ih => exact fun s' hs => ⟨(h s' hs).1, ih (h s' hs).2⟩

/-- A condition along a run holds along what follows a first part. -/
theorem Along.after {step : σ → ε → Option σ} {ok : σ → ε → Prop} {s t : σ} {es fs : List ε}
    (h : Along step ok s (es ++ fs)) (hr : run step s es = some t) : Along step ok t fs := by
  induction es generalizing s with
  | nil =>
      simp only [run, Option.some.injEq] at hr
      rw [← hr]
      exact h
  | cons e es ih =>
      rcases Option.bind_eq_some_iff.mp hr with ⟨s', hs, hrest⟩
      exact ih (h s' hs).2 hrest

/-- A condition along a run holds at the step taken after any part of it. -/
theorem Along.at_last {step : σ → ε → Option σ} {ok : σ → ε → Prop} {s t t' : σ} {es : List ε}
    {e : ε} (h : Along step ok s (es ++ [e])) (hr : run step s es = some t)
    (he : step t e = some t') : ok t e := by
  induction es generalizing s with
  | nil =>
      simp only [run, Option.some.injEq] at hr
      rw [← hr] at he ⊢
      exact (h t' he).1
  | cons e' es ih =>
      rcases Option.bind_eq_some_iff.mp hr with ⟨s', hs, hrest⟩
      exact ih (h s' hs).2 hrest

/-- The exact rule: if from a good state a step leads to a good state exactly
    when it meets `ok`, the run stays good exactly when all its steps do. -/
theorem throughout_iff_along (step : σ → ε → Option σ) (P : σ → Prop) (ok : σ → ε → Prop)
    (hstep : ∀ s e s', P s → step s e = some s' → (P s' ↔ ok s e))
    (s : σ) (es : List ε) (hs : P s) :
    Throughout step P s es ↔ Along step ok s es := by
  constructor
  · intro h
    induction es generalizing s with
    | nil => trivial
    | cons e es ih =>
        intro s' hse
        have hrest := h.2 s' hse
        exact ⟨(hstep s e s' hs hse).mp hrest.head, ih s' hrest.head hrest⟩
  · exact throughout_of_along step P ok
      (fun s e s' hP hoke hse => (hstep s e s' hP hse).mpr hoke) s es hs

/-- The exact rule for the runs whose steps are all fair, under an invariant that
    fair steps keep. -/
theorem throughout_iff_along_of_fair (step : σ → ε → Option σ) (I P : σ → Prop)
    (fair ok : σ → ε → Prop) (hI : ∀ s e s', I s → fair s e → step s e = some s' → I s')
    (hstep : ∀ s e s', I s → P s → fair s e → step s e = some s' → (P s' ↔ ok s e))
    (s : σ) (es : List ε) (hs : I s) (hP : P s) (hfair : Along step fair s es) :
    Throughout step P s es ↔ Along step ok s es := by
  induction es generalizing s with
  | nil => exact ⟨fun _ => trivial, fun _ => hP⟩
  | cons e es ih =>
      constructor
      · intro h s' hse
        rcases hfair s' hse with ⟨he, hrest⟩
        have hP' := (h.2 s' hse).head
        exact ⟨(hstep s e s' hs hP he hse).mp hP',
          (ih s' (hI s e s' hs he hse) hP' hrest).mp (h.2 s' hse)⟩
      · intro h
        refine ⟨hP, fun s' hse => ?_⟩
        rcases hfair s' hse with ⟨he, hrest⟩
        rcases h s' hse with ⟨hok, hafter⟩
        exact (ih s' (hI s e s' hs he hse) ((hstep s e s' hs hP he hse).mpr hok) hrest).mpr hafter

/-- Two predicates that agree wherever an invariant holds hold throughout the
    same runs, as long as the steps taken keep the invariant. -/
theorem throughout_congr_along (step : σ → ε → Option σ) (I P Q : σ → Prop) (ok : σ → ε → Prop)
    (hI : ∀ s e s', I s → ok s e → step s e = some s' → I s') (hiff : ∀ s, I s → (P s ↔ Q s))
    (s : σ) (es : List ε) (hs : I s) (hok : Along step ok s es) :
    Throughout step P s es ↔ Throughout step Q s es := by
  induction es generalizing s with
  | nil => exact hiff s hs
  | cons e es ih =>
      have hrest : ∀ s', step s e = some s' →
          (Throughout step P s' es ↔ Throughout step Q s' es) := fun s' hse =>
        ih s' (hI s e s' hs (hok s' hse).1 hse) (hok s' hse).2
      constructor
      · intro h
        exact ⟨(hiff s hs).mp h.1, fun s' hse => (hrest s' hse).mp (h.2 s' hse)⟩
      · intro h
        exact ⟨(hiff s hs).mpr h.1, fun s' hse => (hrest s' hse).mpr (h.2 s' hse)⟩

/-- The same for an invariant that every step keeps. -/
theorem throughout_congr (step : σ → ε → Option σ) (I P Q : σ → Prop)
    (hI : ∀ s e s', I s → step s e = some s' → I s') (hiff : ∀ s, I s → (P s ↔ Q s))
    (s : σ) (es : List ε) (hs : I s) :
    Throughout step P s es ↔ Throughout step Q s es :=
  throughout_congr_along step I P Q (fun _ _ => True) (fun s e s' h _ => hI s e s' h) hiff s es hs
    (along_of_forall step _ s es (fun _ _ _ => trivial))

/-- The invariant rule read at the end of the run. -/
theorem invariant_run (step : σ → ε → Option σ) (P : σ → Prop) (ok : σ → ε → Prop)
    (hstep : ∀ s e s', P s → ok s e → step s e = some s' → P s')
    {s t : σ} {es : List ε} (hs : P s) (hok : Along step ok s es)
    (hr : run step s es = some t) : P t :=
  (throughout_of_along step P ok hstep s es hs hok).last hr

/-- Of a log that every step adds to, an entry was there before or was added by one
    of the steps. -/
theorem mem_log_run {ω : Type} {step : σ → ε → Option σ} {log : σ → List ω}
    {emit : σ → ε → List ω} (hlog : ∀ s e s', step s e = some s' → log s' = log s ++ emit s e)
    {s t : σ} {es : List ε} (hr : run step s es = some t) (o : ω) :
    o ∈ log t ↔ o ∈ log s ∨ ∃ es₁ e es₂ u, es = es₁ ++ e :: es₂ ∧ run step s es₁ = some u ∧
      o ∈ emit u e := by
  induction es generalizing s with
  | nil =>
      simp only [run, Option.some.injEq] at hr
      rw [hr]
      constructor
      · exact Or.inl
      · rintro (h | ⟨es₁, e, es₂, u, hes, _⟩)
        · exact h
        · exact absurd hes.symm (List.append_ne_nil_of_right_ne_nil _ (List.cons_ne_nil e es₂))
  | cons e es ih =>
      rcases Option.bind_eq_some_iff.mp hr with ⟨s', hs, hrest⟩
      rw [ih hrest, hlog s e s' hs, List.mem_append]
      constructor
      · rintro ((h | h) | ⟨es₁, e', es₂, u, hes, hu, ho⟩)
        · exact Or.inl h
        · exact Or.inr ⟨[], e, es, s, rfl, rfl, h⟩
        · refine Or.inr ⟨e :: es₁, e', es₂, u, by rw [hes, List.cons_append], ?_, ho⟩
          rw [run, hs]
          exact hu
      · rintro (h | ⟨es₁, e', es₂, u, hes, hu, ho⟩)
        · exact Or.inl (Or.inl h)
        -- The step is the first one, or one of the rest.
        · cases es₁ with
          | nil =>
              rw [List.nil_append, List.cons.injEq] at hes
              simp only [run, Option.some.injEq] at hu
              rw [hes.1, hu]
              exact Or.inl (Or.inr ho)
          | cons e₁ es₁ =>
              rw [List.cons_append, List.cons.injEq] at hes
              rw [run, ← hes.1, hs] at hu
              exact Or.inr ⟨es₁, e', es₂, u, hes.2, hu, ho⟩

/-- What holds at the end of every part of a run holds throughout. -/
theorem throughout_of_prefix (step : σ → ε → Option σ) (P : σ → Prop) (s : σ) (es : List ε)
    (h : ∀ es₁ es₂ u, es = es₁ ++ es₂ → run step s es₁ = some u → P u) :
    Throughout step P s es := by
  induction es generalizing s with
  | nil => exact h [] [] s rfl rfl
  | cons e es ih =>
      refine ⟨h [] (e :: es) s rfl rfl, fun s' hs => ih s' (fun es₁ es₂ u hes hu => ?_)⟩
      refine h (e :: es₁) es₂ u (by rw [hes, List.cons_append]) ?_
      rw [run, hs]
      exact hu

/-- Where every event is possible, a property that no step brings back holds at
    the end of a run if and only if it holds throughout. -/
theorem throughout_iff_last (step : σ → ε → Option σ) (I P : σ → Prop)
    (htotal : ∀ s e, ∃ s', step s e = some s') (hI : ∀ s e s', I s → step s e = some s' → I s')
    (hback : ∀ s e s', I s → step s e = some s' → P s' → P s) (s : σ) (es : List ε) (hs : I s) :
    (∀ t, run step s es = some t → P t) ↔ Throughout step P s es := by
  induction es generalizing s with
  | nil => simp only [run, Option.some.injEq, forall_eq', Throughout]
  | cons e es ih =>
      rcases htotal s e with ⟨s', hstep⟩
      have hrest := ih s' (hI s e s' hs hstep)
      simp only [run, Throughout, hstep, Option.bind_some, Option.some.injEq, forall_eq']
      rw [hrest]
      exact ⟨fun h => ⟨hback s e s' hs hstep h.head, h⟩, And.right⟩

/-! ## What a run hands out -/

section Emitted

variable {ω : Type}

/-- What the steps of a run hand out, in order, up to the first event that is not
    possible. -/
def emitted (step : σ → ε → Option σ) (emit : σ → ε → List ω) : σ → List ε → List ω
  | _, [] => []
  | s, e :: es => match step s e with
    | none => []
    | some s' => emit s e ++ emitted step emit s' es

variable {step : σ → ε → Option σ} {emit : σ → ε → List ω}

theorem emitted_cons {s s' : σ} {e : ε} (h : step s e = some s') (es : List ε) :
    emitted step emit s (e :: es) = emit s e ++ emitted step emit s' es := by
  rw [emitted, h]

/-- What is handed out was handed out by one of the steps. -/
theorem mem_emitted {s : σ} {es : List ε} {o : ω} : o ∈ emitted step emit s es ↔
    ∃ es₁ e es₂ u u', es = es₁ ++ e :: es₂ ∧ run step s es₁ = some u ∧ step u e = some u' ∧
      o ∈ emit u e := by
  induction es generalizing s with
  | nil =>
      refine ⟨fun h => (List.not_mem_nil h).elim, ?_⟩
      rintro ⟨es₁, e, es₂, _, _, hes, _⟩
      exact absurd hes.symm (List.append_ne_nil_of_right_ne_nil _ (List.cons_ne_nil e es₂))
  | cons e es ih =>
      cases hs : step s e with
      | none =>
          rw [emitted, hs]
          refine ⟨fun h => (List.not_mem_nil h).elim, ?_⟩
          rintro ⟨es₁, e', es₂, u, u', hes, hu, hstep, _⟩
          -- The first event of the run would have to be possible.
          cases es₁ with
          | nil =>
              rw [List.nil_append, List.cons.injEq] at hes
              simp only [run, Option.some.injEq] at hu
              rw [← hu, ← hes.1, hs] at hstep
              exact absurd hstep (by simp only [reduceCtorEq, not_false_eq_true])
          | cons e₁ es₁ =>
              rw [List.cons_append, List.cons.injEq] at hes
              rw [run, ← hes.1, hs] at hu
              exact absurd hu (by simp only [Option.bind_none, reduceCtorEq, not_false_eq_true])
      | some s' =>
          rw [emitted_cons hs, List.mem_append, ih]
          constructor
          · rintro (h | ⟨es₁, e', es₂, u, u', hes, hu, hstep, ho⟩)
            · exact ⟨[], e, es, s, s', rfl, rfl, hs, h⟩
            · refine ⟨e :: es₁, e', es₂, u, u', by rw [hes, List.cons_append], ?_, hstep, ho⟩
              rw [run, hs]
              exact hu
          · rintro ⟨es₁, e', es₂, u, u', hes, hu, hstep, ho⟩
            cases es₁ with
            | nil =>
                rw [List.nil_append, List.cons.injEq] at hes
                simp only [run, Option.some.injEq] at hu
                rw [hes.1, hu]
                exact Or.inl ho
            | cons e₁ es₁ =>
                rw [List.cons_append, List.cons.injEq] at hes
                rw [run, ← hes.1, hs] at hu
                exact Or.inr ⟨es₁, e', es₂, u, u', hes.2, hu, hstep, ho⟩

/-- Every event of a run that was possible handed out its share. -/
theorem exists_emitted {s t : σ} {es : List ε} (h : run step s es = some t) {e : ε} (he : e ∈ es) :
    ∃ u u', step u e = some u' ∧ emit u e ⊆ emitted step emit s es := by
  induction es generalizing s with
  | nil => exact (List.not_mem_nil he).elim
  | cons e' es ih =>
      rcases Option.bind_eq_some_iff.mp h with ⟨s', hs, hrest⟩
      rw [emitted_cons hs]
      rcases List.mem_cons.mp he with rfl | htail
      · exact ⟨s, s', hs, List.subset_append_left ..⟩
      · rcases ih hrest htail with ⟨u, u', hu, hsub⟩
        exact ⟨u, u', hu, List.Subset.trans hsub (List.subset_append_right ..)⟩

/-- Events that hand out the same in every state. -/
theorem emitted_congr {emit' : σ → ε → List ω} {es : List ε}
    (h : ∀ s, ∀ e ∈ es, emit s e = emit' s e) (s : σ) :
    emitted step emit s es = emitted step emit' s es := by
  induction es generalizing s with
  | nil => rfl
  | cons e es ih =>
      rw [emitted, emitted, h s e (List.mem_cons_self ..)]
      cases step s e with
      | none => rfl
      | some s' =>
          exact congrArg (emit' s e ++ ·)
            (ih (fun u e' he' => h u e' (List.mem_cons_of_mem _ he')) s')

/-- What two runs hand out, one after the other. -/
theorem emitted_append {s t : σ} {es fs : List ε} (h : run step s es = some t) :
    emitted step emit s (es ++ fs) = emitted step emit s es ++ emitted step emit t fs := by
  induction es generalizing s with
  | nil =>
      simp only [run, Option.some.injEq] at h
      rw [h]
      rfl
  | cons e es ih =>
      rcases Option.bind_eq_some_iff.mp h with ⟨s', hs, hrest⟩
      rw [List.cons_append, emitted_cons hs, emitted_cons hs, ih hrest, List.append_assoc]

/-- What a run hands out, with one more step. -/
theorem emitted_concat {s t t' : σ} {es : List ε} {e : ε} (h : run step s es = some t)
    (he : step t e = some t') :
    emitted step emit s (es ++ [e]) = emitted step emit s es ++ emit t e := by
  rw [emitted_append h, emitted_cons he, emitted, List.append_nil]

/-- A longer run hands out at least as much. -/
theorem emitted_subset_append (step : σ → ε → Option σ) (emit : σ → ε → List ω) (s : σ)
    (es fs : List ε) :
    emitted step emit s es ⊆ emitted step emit s (es ++ fs) := by
  intro o ho
  rcases mem_emitted.mp ho with ⟨es₁, e, es₂, u, u', hes, hu, hstep, hin⟩
  exact mem_emitted.mpr ⟨es₁, e, es₂ ++ fs, u, u', by rw [hes, List.append_assoc, List.cons_append],
    hu, hstep, hin⟩

/-- The invariant rule for a state together with what was handed out so far. -/
theorem invariant_emitted (step : σ → ε → Option σ) (emit : σ → ε → List ω)
    (P : σ → List ω → Prop) (ok : σ → ε → Prop)
    (hstep : ∀ s e s' log, P s log → ok s e → step s e = some s' → P s' (log ++ emit s e))
    {s t : σ} {es : List ε} {log : List ω} (hs : P s log) (hok : Along step ok s es)
    (hr : run step s es = some t) : P t (log ++ emitted step emit s es) := by
  induction es generalizing s log with
  | nil =>
      simp only [run, Option.some.injEq] at hr
      rw [← hr, emitted, List.append_nil]
      exact hs
  | cons e es ih =>
      rcases Option.bind_eq_some_iff.mp hr with ⟨s', hse, hrest⟩
      rcases hok s' hse with ⟨hoke, hokrest⟩
      rw [emitted_cons hse, ← List.append_assoc]
      exact ih (hstep s e s' log hs hoke hse) hokrest hrest

/-- Of a buffer whose steps take from the front and add at the end, everything
    that enters leaves once and in order, or is still in it. -/
theorem buffer_run (step : σ → ε → Option σ) (buf : σ → List ω) (enter leave : σ → ε → List ω)
    (hstep : ∀ s e s', step s e = some s' → leave s e ++ buf s' = buf s ++ enter s e)
    {s t : σ} {es : List ε} (hr : run step s es = some t) :
    emitted step leave s es ++ buf t = buf s ++ emitted step enter s es := by
  induction es generalizing s with
  | nil =>
      simp only [run, Option.some.injEq] at hr
      rw [hr, emitted, emitted, List.nil_append, List.append_nil]
  | cons e es ih =>
      rcases Option.bind_eq_some_iff.mp hr with ⟨s', hse, hrest⟩
      rw [emitted_cons hse, emitted_cons hse, List.append_assoc, ih hrest, ← List.append_assoc,
        hstep s e s' hse, List.append_assoc]

end Emitted

end Machine

end WhisperNet
