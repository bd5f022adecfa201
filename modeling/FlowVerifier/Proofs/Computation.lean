import FlowVerifier.Symbolic.Transfer
import FlowVerifier.Workspace

/-!
# Computations that change a state and may fail

Edits of a graph, transformations of a workspace and executions on a path are
computations of one kind: they change a state, also where they fail.  `outcome`
runs such a computation, and the equations below say what its building blocks
do, so that larger ones can be followed step by step.

`OnlyFatal` computations fail with structural errors and defects only, never
with a mistake of the analysed program.  The property passes from the parts of a
computation to the whole.
-/

namespace FlowVerifier

variable {σ α β : Type}

/-- The result of a computation, and the state it leaves. -/
def outcome (x : ExceptT Error (StateM σ) α) (s : σ) : Except Error α × σ :=
  StateT.run (ExceptT.run x) s

@[simp]
theorem outcome_pure (a : α) (s : σ) :
    outcome (pure a : ExceptT Error (StateM σ) α) s = (.ok a, s) := rfl

@[simp]
theorem outcome_throw (e : Error) (s : σ) :
    outcome (throw e : ExceptT Error (StateM σ) α) s = (.error e, s) := rfl

@[simp]
theorem outcome_get (s : σ) : outcome (get : ExceptT Error (StateM σ) σ) s = (.ok s, s) := rfl

@[simp]
theorem outcome_set (s' s : σ) :
    outcome (set s' : ExceptT Error (StateM σ) PUnit) s = (.ok ⟨⟩, s') := rfl

@[simp]
theorem outcome_modify (f : σ → σ) (s : σ) :
    outcome (modify f : ExceptT Error (StateM σ) PUnit) s = (.ok ⟨⟩, f s) := rfl

/-- A computation goes on with the result and the state of its first part. -/
theorem outcome_bind (x : ExceptT Error (StateM σ) α) (f : α → ExceptT Error (StateM σ) β)
    (s : σ) :
    outcome (x >>= f) s =
      match outcome x s with
      | (.ok a, s') => outcome (f a) s'
      | (.error e, s') => (.error e, s') := by
  show (match outcome x s with
      | (r, s') => outcome (ExceptT.mk (ExceptT.bindCont f r)) s') = _
  rcases outcome x s with ⟨r, s'⟩
  cases r <;> rfl

theorem outcome_bind_congr (x : ExceptT Error (StateM σ) α)
    {f h : α → ExceptT Error (StateM σ) β} (s : σ)
    (hrest : ∀ a s', outcome (f a) s' = outcome (h a) s') :
    outcome (x >>= f) s = outcome (x >>= h) s := by
  rw [outcome_bind, outcome_bind]
  split
  · exact hrest _ _
  · rfl

theorem outcome_bind_ok {x : ExceptT Error (StateM σ) α} {f : α → ExceptT Error (StateM σ) β}
    {s s' : σ} {a : α} (h : outcome x s = (.ok a, s')) :
    outcome (x >>= f) s = outcome (f a) s' := by
  rw [outcome_bind, h]

theorem outcome_bind_error {x : ExceptT Error (StateM σ) α}
    {f : α → ExceptT Error (StateM σ) β} {s s' : σ} {e : Error}
    (h : outcome x s = (.error e, s')) : outcome (x >>= f) s = (.error e, s') := by
  rw [outcome_bind, h]

/-- The result of a computation without a state. -/
theorem outcome_liftExcept (r : Except Error α) (s : σ) :
    outcome (liftM r : ExceptT Error (StateM σ) α) s = (r, s) := by
  cases r <;> rfl

/-- A computation for each element of a list, one after the other. -/
theorem outcome_filterMapM_cons_iff {f : α → ExceptT Error (StateM σ) (Option β)} {a : α}
    {l : List α} {s s' : σ} {bs : List β} :
    outcome ((a :: l).filterMapM f) s = (.ok bs, s') ↔ ∃ b s₁ rest,
      outcome (f a) s = (.ok b, s₁) ∧ outcome (l.filterMapM f) s₁ = (.ok rest, s') ∧
        bs = b.toList ++ rest := by
  constructor
  · intro h
    rw [List.filterMapM_cons, outcome_bind] at h
    rcases hfirst : outcome (f a) s with ⟨r, s₁⟩
    rw [hfirst] at h
    cases r with
    | error e => exact absurd (congrArg Prod.fst h) (by simp)
    | ok b =>
        cases b with
        | none => exact ⟨none, s₁, bs, rfl, h, rfl⟩
        | some b =>
            dsimp only at h
            rw [outcome_bind] at h
            rcases hrest : outcome (l.filterMapM f) s₁ with ⟨r, s₂⟩
            rw [hrest] at h
            cases r with
            | error e => exact absurd (congrArg Prod.fst h) (by simp)
            | ok rest =>
                cases h
                exact ⟨some b, s₁, rest, rfl, hrest, rfl⟩
  · rintro ⟨b, s₁, rest, hfirst, hrest, rfl⟩
    rw [List.filterMapM_cons, outcome_bind_ok hfirst]
    cases b with
    | none => exact hrest
    | some b => exact outcome_bind_ok hrest

theorem outcome_filterMapM_append {f : α → ExceptT Error (StateM σ) (Option β)} {l m : List α}
    {s s' : σ} {bs : List β} (h : outcome ((l ++ m).filterMapM f) s = (.ok bs, s')) :
    ∃ first s₁ rest, outcome (l.filterMapM f) s = (.ok first, s₁) ∧
      outcome (m.filterMapM f) s₁ = (.ok rest, s') ∧ bs = first ++ rest := by
  induction l generalizing s bs with
  | nil => exact ⟨[], s, bs, rfl, h, rfl⟩
  | cons a l ih =>
      obtain ⟨b, s₁, rest, hfirst, hrest, rfl⟩ := outcome_filterMapM_cons_iff.1 h
      obtain ⟨first, s₂, last, hmiddle, hlast, rfl⟩ := ih hrest
      exact ⟨b.toList ++ first, s₂, last,
        outcome_filterMapM_cons_iff.2 ⟨b, s₁, first, hfirst, hmiddle, rfl⟩, hlast,
        (List.append_assoc ..).symm⟩

/-- A computation without a state fails in its first part, or in the rest. -/
theorem bind_eq_error_iff {x : Except Error α} {f : α → Except Error β} {e : Error} :
    (x >>= f) = .error e ↔ x = .error e ∨ ∃ a, x = .ok a ∧ f a = .error e := by
  cases x with
  | error e' => simp [bind, Except.bind]
  | ok a => simp [bind, Except.bind]

/-- A computation without a state succeeds if its first part does, and then the rest. -/
theorem bind_eq_ok_iff {ε : Type} {x : Except ε α} {f : α → Except ε β} {b : β} :
    (x >>= f) = .ok b ↔ ∃ a, x = .ok a ∧ f a = .ok b := by
  cases x with
  | error e => simp [bind, Except.bind]
  | ok a => simp [bind, Except.bind]

/-- What is looked at succeeds if what it looks at does. -/
theorem map_eq_ok_iff {ε : Type} {x : Except ε α} {f : α → β} {b : β} :
    x.map f = .ok b ↔ ∃ a, x = .ok a ∧ f a = b := by
  cases x with
  | error e => simp [Except.map]
  | ok a => simp [Except.map]

/-! ## Computations that fail only fatally -/

/-- Does the computation never fail with a mistake of the analysed program? -/
def OnlyFatal (x : ExceptT Error (StateM σ) α) : Prop :=
  ∀ s e, (outcome x s).1 = .error e → e.isRecoverable = false

namespace OnlyFatal

theorem no_mistake {x : ExceptT Error (StateM σ) α} (h : OnlyFatal x) (s : σ)
    (m : ProgramError) : (outcome x s).1 ≠ .error (.program m) := by
  intro he
  have hf := h s _ he
  exact absurd hf (by simp [Error.isRecoverable])

theorem pure (a : α) : OnlyFatal (pure a : ExceptT Error (StateM σ) α) := by
  intro s e h
  simp at h

theorem throw {e : Error} (he : e.isRecoverable = false) :
    OnlyFatal (throw e : ExceptT Error (StateM σ) α) := by
  intro s e' h
  simp only [outcome_throw, Except.error.injEq] at h
  exact h ▸ he

theorem get : OnlyFatal (get : ExceptT Error (StateM σ) σ) := by
  intro s e h
  simp at h

theorem set (s' : σ) : OnlyFatal (set s' : ExceptT Error (StateM σ) PUnit) := by
  intro s e h
  simp at h

theorem modify (f : σ → σ) : OnlyFatal (modify f : ExceptT Error (StateM σ) PUnit) := by
  intro s e h
  simp at h

theorem bind {x : ExceptT Error (StateM σ) α} {f : α → ExceptT Error (StateM σ) β}
    (hx : OnlyFatal x) (hf : ∀ a, OnlyFatal (f a)) : OnlyFatal (x >>= f) := by
  intro s e h
  rw [outcome_bind] at h
  have hxs := hx s
  rcases houtcome : outcome x s with ⟨r, s'⟩
  rw [houtcome] at h hxs
  cases r with
  | error e' =>
      obtain rfl : e' = e := Except.error.inj h
      exact hxs e' rfl
  | ok a => exact hf a s' e h

/-- If only the first part can make a mistake, the whole makes its mistakes. -/
theorem bind_mistake_iff {x : ExceptT Error (StateM σ) α}
    {f : α → ExceptT Error (StateM σ) β} (hf : ∀ a, OnlyFatal (f a)) (s : σ)
    (m : ProgramError) :
    (outcome (x >>= f) s).1 = .error (.program m) ↔
      (outcome x s).1 = .error (.program m) := by
  rw [outcome_bind]
  rcases outcome x s with ⟨r, s'⟩
  cases r with
  | error e => simp
  | ok a => simpa using (hf a).no_mistake s' m

theorem map {x : ExceptT Error (StateM σ) α} (f : α → β) (hx : OnlyFatal x) :
    OnlyFatal (f <$> x) := by
  rw [map_eq_pure_bind]
  exact hx.bind fun a => .pure (f a)

theorem liftExcept {r : Except Error α} (hr : ∀ e, r = .error e → e.isRecoverable = false) :
    OnlyFatal (liftM r : ExceptT Error (StateM σ) α) := by
  intro s e h
  rw [outcome_liftExcept] at h
  exact hr e h

theorem forIn {l : List α} {init : β} {f : α → β → ExceptT Error (StateM σ) (ForInStep β)}
    (hf : ∀ a b, OnlyFatal (f a b)) : OnlyFatal (forIn l init f) := by
  induction l generalizing init with
  | nil => exact .pure init
  | cons a l ih =>
      rw [List.forIn_cons]
      refine (hf a init).bind fun r => ?_
      cases r with
      | done b => exact .pure b
      | yield b => exact ih

theorem foldlM {l : List α} {init : β} {f : β → α → ExceptT Error (StateM σ) β}
    (hf : ∀ b a, OnlyFatal (f b a)) : OnlyFatal (l.foldlM f init) := by
  induction l generalizing init with
  | nil => exact .pure init
  | cons a l ih =>
      rw [List.foldlM_cons]
      exact (hf init a).bind fun b => ih

theorem filterMapM {l : List α} {f : α → ExceptT Error (StateM σ) (Option β)}
    (hf : ∀ a, OnlyFatal (f a)) : OnlyFatal (l.filterMapM f) := by
  induction l with
  | nil => exact .pure []
  | cons a l ih =>
      rw [List.filterMapM_cons]
      refine (hf a).bind fun b => ?_
      cases b with
      | none => exact ih
      | some b => exact ih.bind fun bs => .pure (b :: bs)

end OnlyFatal

end FlowVerifier
