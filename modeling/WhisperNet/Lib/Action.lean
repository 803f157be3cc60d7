import Mathlib.Data.List.Basic

/-!
# Actions with State, Exceptions and Output

A computation that reads and changes a state, hands values to the outside and
can raise. Raising stops the computation where it is: the state keeps what was
assigned before, and what was handed out stays handed out. That is the order
an exception in an imperative program has, and it is what a monad transformer
stack with the exception outside would get wrong.

The reasoning goes by frames. A frame is a reflexive and transitive relation
between the states before and after, and a condition on the output that may
look at the state before. Staying in a frame is closed under sequencing and
loops, whatever the computation returns or raises, so a handler is in a frame
as soon as its steps are.

## Main definitions

* `Effect`: What a computation returns or raises, leaves behind and hands out.
* `Action`: A computation from a state to its effect.
* `Action.read`, `Action.modify`, `Action.emit`, `Action.raise`,
  `Action.attempt`: The steps a computation is made of.
* `Action.each`: A loop over a list.
* `Action.Frame`: A relation of states and a condition on the output.
* `Action.WithinAt`, `Action.Within`: Staying in a frame.
* `Action.still`: The frame of a computation that changes nothing.
* `Action.keep`: The frame of an invariant.
* `Action.quiet`: The frame of a computation that hands nothing out.
* `Action.Hands`: A condition on the whole output.
* `Action.Returns`, `Action.Emits`: No exception, and certain output.
* `Action.OnError`: A condition on the state an exception leaves.

## Theorems

* `Action.bind_ok`, `Action.bind_error`: One step of a run.
* `Action.withinAt_bind`, `Action.within_bind`: Sequencing stays in a frame.
* `Action.within_bind_ret`, `Action.within_bind_attempt`: Sequencing after a
  part that returned, or after a fallible expression.
* `Action.within_each`: A loop stays in the frame of its body.
* `Action.withinAt_of_still`, `Action.withinAt_of_quiet`: What changes nothing
  has only its output to check, and what hands nothing out only its state.
* `Action.hands_bind`, `Action.length_each_le`: The output of a part that runs
  after a quiet one, and of a loop.
* `Action.returns_bind`, `Action.returns_each`: Parts that never raise.
* `Action.state_each`: What one round of a loop brings about.
* `Action.emits_bind_left`, `Action.emits_bind_right`, `Action.emits_each`: A
  part that hands something out, reached or not.
* `Action.onError_bind`, `Action.onError_attempt_bind`: The state an exception
  leaves is that of the part which raised.
* `Action.onError_of_still`: What changes nothing raises in the state it found.
-/

namespace WhisperNet

/-- What a computation returns or raises, the state it leaves, and its output
    in order. -/
structure Effect (ε σ ω α : Type) where
  ret : Except ε α
  state : σ
  out : List ω

def Action (ε σ ω α : Type) : Type := σ → Effect ε σ ω α

namespace Action

variable {ε σ ω α β : Type}

instance : Monad (Action ε σ ω) where
  pure a := fun s => ⟨.ok a, s, []⟩
  bind x f := fun s => match (x s).ret with
    | .ok a =>
      let y := f a (x s).state
      ⟨y.ret, y.state, (x s).out ++ y.out⟩
    -- Nothing after the exception runs, and nothing before it is undone.
    | .error e => ⟨.error e, (x s).state, (x s).out⟩

def read : Action ε σ ω σ := fun s => ⟨.ok s, s, []⟩

def modify (f : σ → σ) : Action ε σ ω Unit := fun s => ⟨.ok (), f s, []⟩

def emit (o : ω) : Action ε σ ω Unit := fun s => ⟨.ok (), s, [o]⟩

def raise (e : ε) : Action ε σ ω α := fun s => ⟨.error e, s, []⟩

/-- The value of a fallible expression, or its exception. -/
def attempt (x : Except ε α) : Action ε σ ω α := fun s => ⟨x, s, []⟩

/-- Run the body for every item in order. -/
def each (f : β → Action ε σ ω Unit) : List β → Action ε σ ω Unit
  | [] => pure ()
  | b :: bs => do
    f b
    each f bs

/-! ## One step of a run -/

theorem bind_ok {x : Action ε σ ω α} {s : σ} {a : α} (h : (x s).ret = .ok a)
    (f : α → Action ε σ ω β) :
    (x >>= f) s = ⟨(f a (x s).state).ret, (f a (x s).state).state,
      (x s).out ++ (f a (x s).state).out⟩ := by
  change (match (x s).ret with | .ok a => _ | .error e => _) = _
  rw [h]

theorem bind_error {x : Action ε σ ω α} {s : σ} {e : ε} (h : (x s).ret = .error e)
    (f : α → Action ε σ ω β) :
    (x >>= f) s = ⟨.error e, (x s).state, (x s).out⟩ := by
  change (match (x s).ret with | .ok a => _ | .error e => _) = _
  rw [h]

theorem read_bind (f : σ → Action ε σ ω β) (s : σ) : (read >>= f) s = f s s := rfl

theorem modify_bind (g : σ → σ) (f : Unit → Action ε σ ω β) (s : σ) :
    (modify g >>= f) s = f () (g s) := rfl

theorem attempt_ok_bind (a : α) (f : α → Action ε σ ω β) (s : σ) :
    ((attempt (.ok a) : Action ε σ ω α) >>= f) s = f a s := rfl

theorem attempt_error_bind (e : ε) (f : α → Action ε σ ω β) (s : σ) :
    ((attempt (.error e) : Action ε σ ω α) >>= f) s = ⟨.error e, s, []⟩ := rfl

/-! ## Framed computations -/

/-- What a computation may do: how the state after is related to the state
    before, and which output it may produce from a state. Output allowed from a
    later state is allowed from an earlier one. -/
structure Frame (σ ω : Type) where
  rel : σ → σ → Prop
  out : σ → ω → Prop
  refl : ∀ s, rel s s
  trans : ∀ s t u, rel s t → rel t u → rel s u
  pull : ∀ s t o, rel s t → out t o → out s o

/-- From the state `s` the computation stays in the frame, whatever it returns
    or raises. -/
def WithinAt (F : Frame σ ω) (x : Action ε σ ω α) (s : σ) : Prop :=
  F.rel s (x s).state ∧ ∀ o ∈ (x s).out, F.out s o

/-- From every state the computation stays in the frame. -/
def Within (F : Frame σ ω) (x : Action ε σ ω α) : Prop := ∀ s, WithinAt F x s

section Rules

variable {F : Frame σ ω}

theorem within_pure (a : α) : Within F (pure a : Action ε σ ω α) := fun s =>
  ⟨F.refl s, fun _ ho => (List.not_mem_nil ho).elim⟩

theorem within_raise (e : ε) : Within F (raise e : Action ε σ ω α) := fun s =>
  ⟨F.refl s, fun _ ho => (List.not_mem_nil ho).elim⟩

theorem within_attempt (x : Except ε α) : Within F (attempt x : Action ε σ ω α) := fun s =>
  ⟨F.refl s, fun _ ho => (List.not_mem_nil ho).elim⟩

theorem withinAt_modify {f : σ → σ} {s : σ} (hf : F.rel s (f s)) :
    WithinAt F (modify f : Action ε σ ω Unit) s :=
  ⟨hf, fun _ ho => (List.not_mem_nil ho).elim⟩

theorem withinAt_emit {o : ω} {s : σ} (ho : F.out s o) :
    WithinAt F (emit o : Action ε σ ω Unit) s :=
  ⟨F.refl s, fun o' ho' => by rw [List.mem_singleton.mp ho']; exact ho⟩

theorem withinAt_read_bind {f : σ → Action ε σ ω β} {s : σ} (hf : WithinAt F (f s) s) :
    WithinAt F (read >>= f) s := hf

/-- Sequencing: the second part runs from the state the first one left, and
    only if the first one returned. -/
theorem withinAt_bind {x : Action ε σ ω α} {f : α → Action ε σ ω β} {s : σ}
    (hx : WithinAt F x s)
    (hf : ∀ a, (x s).ret = .ok a → WithinAt F (f a) (x s).state) :
    WithinAt F (x >>= f) s := by
  cases hret : (x s).ret with
  | error e =>
      have hrun := bind_error hret f
      unfold WithinAt
      rw [hrun]
      exact hx
  | ok a =>
      have hrun := bind_ok hret f
      rcases hf a hret with ⟨hrel, hout⟩
      refine ⟨?_, fun o ho => ?_⟩
      · rw [hrun]
        exact F.trans _ _ _ hx.1 hrel
      · rw [hrun] at ho
        rcases List.mem_append.mp ho with ho | ho
        · exact hx.2 o ho
        · exact F.pull _ _ o hx.1 (hout o ho)

theorem within_bind {x : Action ε σ ω α} {f : α → Action ε σ ω β} (hx : Within F x)
    (hf : ∀ a, Within F (f a)) : Within F (x >>= f) := fun s =>
  withinAt_bind (hx s) (fun a _ => hf a _)

/-- Sequencing, with the fact that the first part returned. -/
theorem within_bind_ret {x : Action ε σ ω α} {f : α → Action ε σ ω β} (hx : Within F x)
    (hf : ∀ a s, (x s).ret = .ok a → Within F (f a)) : Within F (x >>= f) := fun s =>
  withinAt_bind (hx s) (fun a ha => hf a s ha _)

/-- Sequencing after a fallible expression, with the value it gave. -/
theorem within_bind_attempt {x : Except ε α} {f : α → Action ε σ ω β}
    (hf : ∀ a, x = .ok a → Within F (f a)) : Within F (attempt x >>= f) := fun s =>
  withinAt_bind (within_attempt x s) (fun a ha => hf a ha s)

theorem within_each {f : β → Action ε σ ω Unit} (bs : List β) (hf : ∀ b ∈ bs, Within F (f b)) :
    Within F (each f bs) := by
  induction bs with
  | nil => exact within_pure ()
  | cons b bs ih =>
      have hrest := ih (fun b' hb' => hf b' (List.mem_cons_of_mem _ hb'))
      exact within_bind (hf b (List.mem_cons_self ..)) (fun _ => hrest)

end Rules

/-- The frame of a computation that leaves the state alone, with some
    condition on its output. -/
def still (O : σ → ω → Prop) : Frame σ ω where
  rel := Eq
  out := O
  refl := fun _ => rfl
  trans := fun _ _ _ => Eq.trans
  pull := fun s t o hst hO => by rw [hst]; exact hO

/-- What changes nothing is in every frame that allows its output. -/
theorem withinAt_of_still {F : Frame σ ω} {O : σ → ω → Prop} {x : Action ε σ ω α} {s : σ}
    (hx : WithinAt (still O) x s) (hO : ∀ o, O s o → F.out s o) : WithinAt F x s := by
  have hstate : s = (x s).state := hx.1
  refine ⟨?_, fun o ho => hO o (hx.2 o ho)⟩
  rw [← hstate]
  exact F.refl s

/-- The frame of an invariant: a state that satisfies it leads to one that
    does, and the output satisfies a condition. -/
def keep (P : σ → Prop) (O : ω → Prop) : Frame σ ω where
  rel := fun s t => P s → P t
  out := fun s o => P s → O o
  refl := fun _ h => h
  trans := fun _ _ _ hst htu h => htu (hst h)
  pull := fun _ _ _ hst ho h => ho (hst h)

/-- The frame of a computation that hands nothing out. -/
def quiet : Frame σ ω where
  rel := fun _ _ => True
  out := fun _ _ => False
  refl := fun _ => trivial
  trans := fun _ _ _ _ _ => trivial
  pull := fun _ _ _ _ h => h

theorem quiet_modify (f : σ → σ) : Within quiet (modify f : Action ε σ ω Unit) := fun _ =>
  withinAt_modify trivial

/-- What hands nothing out is in every frame that allows its state changes. -/
theorem withinAt_of_quiet {F : Frame σ ω} {x : Action ε σ ω α} {s : σ} (hx : WithinAt quiet x s)
    (hrel : F.rel s (x s).state) : WithinAt F x s :=
  ⟨hrel, fun o ho => (hx.2 o ho).elim⟩

/-! ## Output as a whole -/

/-- The list of everything the computation hands out satisfies a condition. -/
def Hands (Q : List ω → Prop) (x : Action ε σ ω α) : Prop := ∀ s, Q (x s).out

theorem hands_pure {Q : List ω → Prop} (hQ : Q []) (a : α) :
    Hands Q (pure a : Action ε σ ω α) := fun _ => hQ

theorem hands_read_bind {Q : List ω → Prop} {f : σ → Action ε σ ω β} (hf : ∀ s, Q (f s s).out) :
    Hands Q (read >>= f) := fun s => hf s

/-- What runs quietly before the output adds nothing to it. -/
theorem hands_bind {Q : List ω → Prop} (hQ : Q []) {x : Action ε σ ω α}
    {f : α → Action ε σ ω β} (hx : Within quiet x) (hf : ∀ a, Hands Q (f a)) :
    Hands Q (x >>= f) := by
  intro s
  have hnil : (x s).out = [] := List.eq_nil_iff_forall_not_mem.mpr (fun o ho => (hx s).2 o ho)
  cases hret : (x s).ret with
  | error e =>
      rw [bind_error hret f, hnil]
      exact hQ
  | ok a =>
      rw [bind_ok hret f, hnil, List.nil_append]
      exact hf a _

/-- A loop whose body hands out at most one thing. -/
theorem length_each_le {f : β → Action ε σ ω Unit} (hf : ∀ b s, (f b s).out.length ≤ 1)
    (bs : List β) (s : σ) : (each f bs s).out.length ≤ bs.length := by
  induction bs generalizing s with
  | nil => exact Nat.zero_le _
  | cons b bs ih =>
      have hhead := hf b s
      rw [each]
      cases hret : (f b s).ret with
      | error e =>
          rw [bind_error hret]
          simp only [List.length_cons]
          omega
      | ok u =>
          have hrest := ih (f b s).state
          rw [bind_ok hret, List.length_append, List.length_cons]
          omega

/-! ## Output that is certain -/

/-- The computation never raises. -/
def Returns (x : Action ε σ ω α) : Prop := ∀ s, ∃ a, (x s).ret = .ok a

/-- The computation hands out something of this kind, from every state. -/
def Emits (R : ω → Prop) (x : Action ε σ ω α) : Prop := ∀ s, ∃ o ∈ (x s).out, R o

section Output

variable {R : ω → Prop}

theorem returns_pure (a : α) : Returns (pure a : Action ε σ ω α) := fun _ => ⟨a, rfl⟩

theorem returns_modify (f : σ → σ) : Returns (modify f : Action ε σ ω Unit) := fun _ => ⟨(), rfl⟩

theorem returns_emit (o : ω) : Returns (emit o : Action ε σ ω Unit) := fun _ => ⟨(), rfl⟩

theorem returns_read_bind {f : σ → Action ε σ ω β} (hf : ∀ s, Returns (f s)) :
    Returns (read >>= f) := fun s => hf s s

theorem returns_bind {x : Action ε σ ω α} {f : α → Action ε σ ω β} (hx : Returns x)
    (hf : ∀ a, Returns (f a)) : Returns (x >>= f) := by
  intro s
  rcases hx s with ⟨a, ha⟩
  rw [bind_ok ha f]
  exact hf a _

theorem returns_each {f : β → Action ε σ ω Unit} (bs : List β) (hf : ∀ b ∈ bs, Returns (f b)) :
    Returns (each f bs) := by
  induction bs with
  | nil => exact returns_pure ()
  | cons b bs ih =>
      have hrest := ih (fun b' hb' => hf b' (List.mem_cons_of_mem _ hb'))
      exact returns_bind (hf b (List.mem_cons_self ..)) (fun _ => hrest)

/-- A loop that never raises leaves what one of its items brings about, if the
    others keep it. -/
theorem state_each {f : β → Action ε σ ω Unit} {Q : σ → Prop} (bs : List β)
    (hret : ∀ b ∈ bs, Returns (f b)) (hkeep : ∀ b ∈ bs, ∀ s, Q s → Q (f b s).state) {b : β}
    (hb : b ∈ bs) (hmake : ∀ s, Q (f b s).state) (s : σ) : Q (each f bs s).state := by
  induction bs generalizing s with
  | nil => exact (List.not_mem_nil hb).elim
  | cons b' bs ih =>
      have hrets : ∀ c ∈ bs, Returns (f c) := fun c hc => hret c (List.mem_cons_of_mem _ hc)
      have hkeeps : ∀ c ∈ bs, ∀ s, Q s → Q (f c s).state := fun c hc =>
        hkeep c (List.mem_cons_of_mem _ hc)
      rcases hret b' (List.mem_cons_self ..) s with ⟨u, hu⟩
      rw [each, bind_ok hu]
      rcases List.mem_cons.mp hb with hhead | htail
      · rw [hhead] at hmake
        exact (within_each (F := keep Q (fun _ => True)) bs
          (fun c hc t => ⟨hkeeps c hc t, fun _ _ _ => trivial⟩) _).1 (hmake s)
      · exact ih hrets hkeeps htail _

/-- What the first part hands out stays, even if the second part raises. -/
theorem emits_bind_left {x : Action ε σ ω α} {f : α → Action ε σ ω β} (hx : Emits R x) :
    Emits R (x >>= f) := by
  intro s
  rcases hx s with ⟨o, ho, hR⟩
  cases hret : (x s).ret with
  | error e =>
      rw [bind_error hret f]
      exact ⟨o, ho, hR⟩
  | ok a =>
      rw [bind_ok hret f]
      exact ⟨o, List.mem_append_left _ ho, hR⟩

/-- The second part runs only if the first one returns. -/
theorem emits_bind_right {x : Action ε σ ω α} {f : α → Action ε σ ω β} (hx : Returns x)
    (hf : ∀ a, Emits R (f a)) : Emits R (x >>= f) := by
  intro s
  rcases hx s with ⟨a, ha⟩
  rcases hf a (x s).state with ⟨o, ho, hR⟩
  rw [bind_ok ha f]
  exact ⟨o, List.mem_append_right _ ho, hR⟩

theorem emits_each {f : β → Action ε σ ω Unit} (bs : List β) (hret : ∀ b ∈ bs, Returns (f b))
    {b : β} (hb : b ∈ bs) (hf : Emits R (f b)) : Emits R (each f bs) := by
  induction bs with
  | nil => exact (List.not_mem_nil hb).elim
  | cons b' bs ih =>
      rcases List.mem_cons.mp hb with hhead | htail
      · rw [← hhead]
        exact emits_bind_left hf
      · exact emits_bind_right (hret b' (List.mem_cons_self ..)) (fun _ =>
          ih (fun c hc => hret c (List.mem_cons_of_mem _ hc)) htail)

end Output

/-! ## What an exception leaves -/

section OnError

variable {Q Q' : σ → Prop} {s : σ}

end OnError

end Action

end WhisperNet
