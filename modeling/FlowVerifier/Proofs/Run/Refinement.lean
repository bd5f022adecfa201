import FlowVerifier.Proofs.Run.Machine

/-!
# When two programs run alike

What can be seen of a run is what it prints, how many inputs it reads and how it
ends.  `Preserves` says that a program shows all that another one shows, and that
it shows the same and ends the same way.  A *lax* program need not do the latter if the
other one fails at a test.

* `Preserves.trans` chains two such steps.
* `Simulation.preserves` derives it from a relation between configurations that
  every step of the second program keeps.  The first program may need several steps
  for it, but at least one; so neither can idle while the other goes on.
-/

namespace FlowVerifier
namespace Run

variable {env : Environment} {g g' : FlowGraph}

/-! ## Steps -/

theorem steps_add (env : Environment) (g : FlowGraph) (m n : Nat) (c : Config) :
    steps env g (m + n) c = steps env g n (steps env g m c) := by
  induction m generalizing c with
  | zero => rw [Nat.zero_add]; rfl
  | succ m ih => rw [Nat.succ_add]; exact ih _

theorem steps_ended (env : Environment) (g : FlowGraph) (n : Nat) (e : Ending) (s : State) :
    steps env g n (.ended e s) = .ended e s := by
  induction n with
  | zero => rfl
  | succ n ih => exact ih

theorem after_succ (env : Environment) (g : FlowGraph) (n : Nat) :
    after env g (n + 1) = step env g (after env g n) :=
  steps_add env g n 1 (start g)

/-! ## What can be seen -/

namespace State

/-- What can be seen of a state. -/
def visible (s : State) : List Literal × Nat := (s.printed, s.consumed)

/-- The second state shows at least what the first one shows. -/
def Shown (s t : State) : Prop := s.printed <+: t.printed ∧ s.consumed ≤ t.consumed

theorem Shown.refl (s : State) : Shown s s := ⟨List.prefix_refl _, Nat.le_refl _⟩

theorem Shown.trans {s t u : State} (h : Shown s t) (h' : Shown t u) : Shown s u :=
  ⟨h.1.trans h'.1, Nat.le_trans h.2 h'.2⟩

theorem Shown.of_visible {s t : State} (h : s.visible = t.visible) : Shown s t := by
  obtain ⟨hp, hc⟩ := Prod.mk.inj h
  exact ⟨hp ▸ List.prefix_refl _, Nat.le_of_eq hc⟩

/-- A computation in two parts gives a result if both parts do. -/
theorem exists_of_bind_eq_ok {α β : Type} {x : Except Fault α} {f : α → Except Fault β} {b : β}
    (h : x >>= f = .ok b) : ∃ a, x = .ok a ∧ f a = .ok b := by
  cases x with
  | error e => exact nomatch h
  | ok a => exact ⟨a, rfl, h⟩

theorem visible_write {s t : State} {target : String} {value : Literal}
    (h : s.write env target value = .ok t) : t.visible = s.visible := by
  unfold write at h
  split at h
  · split at h
    · exact nomatch h
    · cases h
      rfl
  · cases h
    rfl

theorem shown_receive {s t : State} {target : String} (h : s.receive env target = .ok t) :
    Shown s t := by
  unfold receive at h
  split at h
  · split at h
    · exact nomatch h
    · cases h
      exact ⟨List.prefix_refl _, Nat.le_succ _⟩
  · exact nomatch h

theorem visible_pop {s t : State} {target : Option String} (h : s.pop env target = .ok t) :
    t.visible = s.visible := by
  unfold pop at h
  split at h
  · exact nomatch h
  · exact nomatch h
  · dsimp only at h
    split at h
    · cases h
      rfl
    · split at h
      · cases h
        rfl
      · exact (visible_write h).trans rfl

theorem visible_declareArray {s t : State} {name : String} {type : ValueType} {size : Operand}
    (h : s.declareArray env name type size = .ok t) : t.visible = s.visible := by
  obtain ⟨v, _, h⟩ := exists_of_bind_eq_ok h
  split at h
  · split at h
    · cases h
      rfl
    · exact nomatch h
  · exact nomatch h

theorem visible_readArray {s t : State} {target array : String} {index : Operand}
    (h : s.readArray env target array index = .ok t) : t.visible = s.visible := by
  obtain ⟨v, _, h⟩ := exists_of_bind_eq_ok h
  obtain ⟨a, _, h⟩ := exists_of_bind_eq_ok h
  obtain ⟨i, _, h⟩ := exists_of_bind_eq_ok h
  split at h
  · exact visible_write h
  · exact nomatch h

theorem visible_writeArray {s t : State} {array : String} {index value : Operand}
    (h : s.writeArray env array index value = .ok t) : t.visible = s.visible := by
  obtain ⟨v, _, h⟩ := exists_of_bind_eq_ok h
  obtain ⟨w, _, h⟩ := exists_of_bind_eq_ok h
  obtain ⟨a, _, h⟩ := exists_of_bind_eq_ok h
  dsimp only at h
  split at h
  · exact nomatch h
  · obtain ⟨i, _, h⟩ := exists_of_bind_eq_ok h
    cases h
    rfl

/-- An instruction takes back nothing that was shown. -/
theorem shown_exec {resolve : String → Option BlockId} {i : Instruction} {s t : State}
    (h : s.exec env resolve i = .ok t) : Shown s t := by
  cases i with
  | declare name type =>
      cases h
      exact Shown.refl s
  | assign target value =>
      obtain ⟨v, _, h⟩ := exists_of_bind_eq_ok h
      exact .of_visible (visible_write h).symm
  | evaluate target op lhs rhs =>
      obtain ⟨a, _, h⟩ := exists_of_bind_eq_ok h
      obtain ⟨b, _, h⟩ := exists_of_bind_eq_ok h
      obtain ⟨v, _, h⟩ := exists_of_bind_eq_ok h
      exact .of_visible (visible_write h).symm
  | print value =>
      obtain ⟨v, _, h⟩ := exists_of_bind_eq_ok h
      cases h
      exact ⟨List.prefix_append _ _, Nat.le_refl _⟩
  | input target => exact shown_receive h
  | push value =>
      obtain ⟨e, _, h⟩ := exists_of_bind_eq_ok h
      cases h
      exact Shown.refl s
  | pushState block =>
      simp only [exec] at h
      split at h
      · cases h
        exact Shown.refl s
      · exact nomatch h
  | pop target => exact .of_visible (visible_pop h).symm
  | declareArray name type size => exact .of_visible (visible_declareArray h).symm
  | readArray target array index => exact .of_visible (visible_readArray h).symm
  | writeArray array index value => exact .of_visible (visible_writeArray h).symm
  | jumpIf test block => exact nomatch h
  | jump block => exact nomatch h
  | ret value => exact nomatch h

theorem shown_execAll {resolve : String → Option BlockId} {body : List Instruction} {s : State} :
    (∀ t, s.execAll env resolve body = .ok t → Shown s t) ∧
      ∀ f t, s.execAll env resolve body = .error (f, t) → Shown s t := by
  induction body generalizing s with
  | nil =>
      refine ⟨fun t h => ?_, fun f t h => (nomatch h)⟩
      cases h
      exact Shown.refl s
  | cons i rest ih =>
      simp only [execAll]
      split
      · rename_i u hi
        exact ⟨fun t h => (shown_exec hi).trans (ih.1 t h),
          fun f t h => (shown_exec hi).trans (ih.2 f t h)⟩
      · refine ⟨fun t h => (nomatch h), fun f t h => ?_⟩
        cases h
        exact Shown.refl s

end State

open State (Shown)

theorem shown_leave (s : State) (t : Terminator) : Shown s (leave s t).state := by
  cases t with
  | finish => exact Shown.refl s
  | jump target => exact Shown.refl s
  | branch test onTrue onFalse =>
      simp only [leave]
      split <;> exact Shown.refl s
  | ret value =>
      simp only [leave, leaveByReturn]
      split
      · exact Shown.refl s
      · split <;> exact Shown.refl s

theorem shown_step (env : Environment) (g : FlowGraph) (c : Config) :
    Shown c.state (step env g c).state := by
  cases c with
  | ended e s => exact Shown.refl s
  | «at» id s =>
      simp only [step, runBlock]
      split
      · split
        · split
          · rename_i h
            exact State.shown_execAll.2 _ _ h
          · rename_i h
            exact (State.shown_execAll.1 _ h).trans (shown_leave _ _)
        · exact Shown.refl s
      · exact Shown.refl s

/-- A run takes back nothing that it has shown. -/
theorem shown_after (env : Environment) (g : FlowGraph) {m n : Nat} (h : m ≤ n) :
    Shown (after env g m).state (after env g n).state := by
  induction h with
  | refl => exact Shown.refl _
  | step _ ih =>
      rw [after_succ]
      exact ih.trans (shown_step env g _)

/-- A run that has ended stays where it is. -/
theorem after_of_ended {m n : Nat} {e : Ending} {s : State} (h : after env g m = .ended e s)
    (hle : m ≤ n) : after env g n = .ended e s := by
  obtain ⟨k, rfl⟩ := Nat.exists_eq_add_of_le hle
  unfold after at h ⊢
  rw [steps_add, h, steps_ended]

/-! ## Behaviour -/

/-- At some time the run has printed the values and read as many inputs. -/
def Shows (env : Environment) (g : FlowGraph) (values : List Literal) (inputs : Nat) : Prop :=
  ∃ n, values <+: (after env g n).state.printed ∧ inputs ≤ (after env g n).state.consumed

/-- The run ends, having printed exactly the values and read exactly as many inputs. -/
def Stops (env : Environment) (g : FlowGraph) (e : Ending) (values : List Literal)
    (inputs : Nat) : Prop :=
  ∃ n s, after env g n = .ended e s ∧ s.printed = values ∧ s.consumed = inputs

/-- The run ends at a test that fails. -/
def FailsTest (env : Environment) (g : FlowGraph) : Prop :=
  ∃ fault values inputs, Stops env g (.badTest fault) values inputs

/-- The run never ends. -/
def RunsForever (env : Environment) (g : FlowGraph) : Prop :=
  ∀ n, (after env g n).ending? = none

/-- The second program shows all that the first one shows, and it shows the same and
ends the same way, unless it is lax and the first one fails at a test. -/
structure Preserves (lax : Prop) (env : Environment) (g g' : FlowGraph) : Prop where
  shows : ∀ {values inputs}, Shows env g values inputs → Shows env g' values inputs
  showsBack : (lax → ¬ FailsTest env g) → ∀ {values inputs}, Shows env g' values inputs →
    Shows env g values inputs
  stops : (lax → ¬ FailsTest env g) → ∀ {e values inputs}, Stops env g e values inputs ↔
    Stops env g' e values inputs

namespace Preserves

variable {lax : Prop}

theorem refl (lax : Prop) (env : Environment) (g : FlowGraph) : Preserves lax env g g :=
  ⟨id, fun _ => id, fun _ => Iff.rfl⟩

/-- A test that fails in the second program failed in the first. -/
theorem failsTest (h : Preserves lax env g g') (hg : lax → ¬ FailsTest env g) :
    lax → ¬ FailsTest env g' := by
  rintro hlax ⟨fault, values, inputs, hstop⟩
  exact hg hlax ⟨fault, values, inputs, (h.stops hg).2 hstop⟩

theorem trans {g'' : FlowGraph} (h : Preserves lax env g g') (h' : Preserves lax env g' g'') :
    Preserves lax env g g'' :=
  ⟨fun hs => h'.shows (h.shows hs),
    fun hg _ _ hs => h.showsBack hg (h'.showsBack (h.failsTest hg) hs),
    fun hg => (h.stops hg).trans (h'.stops (h.failsTest hg))⟩

end Preserves

theorem runsForever_iff : RunsForever env g ↔ ¬ ∃ e values inputs, Stops env g e values inputs := by
  constructor
  · rintro h ⟨e, values, inputs, n, s, hn, _⟩
    have hnone := h n
    rw [hn] at hnone
    exact nomatch hnone
  · intro h n
    cases hn : after env g n with
    | «at» id s => rfl
    | ended e s => exact absurd ⟨e, _, _, n, s, hn, rfl, rfl⟩ h

/-- Two programs show the same and end the same way, or both run forever. -/
structure SameRuns (env : Environment) (g g' : FlowGraph) : Prop where
  shows : ∀ values inputs, Shows env g values inputs ↔ Shows env g' values inputs
  stops : ∀ e values inputs, Stops env g e values inputs ↔ Stops env g' e values inputs
  forever : RunsForever env g ↔ RunsForever env g'

theorem Preserves.sameRuns {lax : Prop} (h : Preserves lax env g g')
    (hg : lax → ¬ FailsTest env g) : SameRuns env g g' := by
  refine ⟨fun _ _ => ⟨h.shows, h.showsBack hg⟩, fun _ _ _ => h.stops hg, ?_⟩
  rw [runsForever_iff, runsForever_iff]
  simp only [h.stops hg]

/-! ## Simulation -/

/-- What can be seen of a configuration. -/
def Config.sight (c : Config) : Option Ending × List Literal × Nat :=
  (c.ending?, c.state.visible)

/-- The first program has failed at a test, having shown what the second one shows. -/
def GivesUp (env : Environment) (g : FlowGraph) (c c' : Config) : Prop :=
  ∃ k fault s, steps env g k c = .ended (.badTest fault) s ∧ s.visible = c'.state.visible

/-- A relation between the configurations of two programs.  Every step of the second
is matched by steps of the first, unless that one gives up. -/
structure Simulation (lax : Prop) (env : Environment) (g g' : FlowGraph)
    (R : Config → Config → Prop) : Prop where
  start : R (start g) (start g')
  sight : ∀ {c c'}, R c c' → c.sight = c'.sight
  step : ∀ {c c'}, R c c' → (∃ k, R (steps env g (k + 1) c) (step env g' c')) ∨
    lax ∧ GivesUp env g c (step env g' c')

namespace Simulation

variable {lax : Prop} {R : Config → Config → Prop}

/-- Along a run of the second program, the first one keeps up or has given up. -/
theorem follows (h : Simulation lax env g g' R) (n : Nat) :
    (∃ m, n ≤ m ∧ R (after env g m) (after env g' n)) ∨
      lax ∧ ∃ k m fault s, after env g k = .ended (.badTest fault) s ∧
        s.visible = (after env g' m).state.visible := by
  induction n with
  | zero => exact .inl ⟨0, Nat.le_refl 0, h.start⟩
  | succ n ih =>
      rcases ih with ⟨m, hm, hR⟩ | hbad
      · rw [after_succ]
        rcases h.step hR with ⟨k, hk⟩ | ⟨hlax, k, fault, s, hk, hv⟩
        · refine .inl ⟨m + (k + 1), by omega, ?_⟩
          rwa [after, steps_add]
        · refine .inr ⟨hlax, m + k, n + 1, fault, s, ?_, ?_⟩
          · rw [after, steps_add]
            exact hk
          · rw [after_succ]
            exact hv
      · exact .inr hbad

/-- The first program keeps up if it never fails at a test. -/
theorem keepsUp (h : Simulation lax env g g' R) (hg : lax → ¬ FailsTest env g) (n : Nat) :
    ∃ m, n ≤ m ∧ R (after env g m) (after env g' n) := by
  rcases h.follows n with hm | ⟨hlax, k, m, fault, s, hk, _⟩
  · exact hm
  · exact absurd ⟨fault, _, _, k, s, hk, rfl, rfl⟩ (hg hlax)

theorem sight_eq (h : Simulation lax env g g' R) {c c' : Config} (hR : R c c') :
    c.ending? = c'.ending? ∧ c.state.visible = c'.state.visible :=
  Prod.mk.inj (h.sight hR)

/-- **Simulated programs run alike.** -/
theorem preserves (h : Simulation lax env g g' R) : Preserves lax env g g' := by
  refine ⟨?_, ?_, ?_⟩
  · rintro values inputs ⟨n, hp, hc⟩
    -- what is shown after `n` steps is shown when the second program has made `n` steps
    obtain ⟨m, hshown⟩ : ∃ m, Shown (after env g n).state (after env g' m).state := by
      rcases h.follows n with ⟨m, hm, hR⟩ | ⟨_, k, m, fault, s, hk, hv⟩
      · exact ⟨n, (shown_after env g hm).trans (.of_visible (h.sight_eq hR).2)⟩
      · refine ⟨m, .trans ?_ (.of_visible hv)⟩
        have hlate : Shown (after env g n).state (after env g (n + k)).state :=
          shown_after env g (Nat.le_add_right n k)
        rwa [after_of_ended hk (Nat.le_add_left k n)] at hlate
    exact ⟨m, hp.trans hshown.1, Nat.le_trans hc hshown.2⟩
  · rintro hg values inputs ⟨n, hp, hc⟩
    obtain ⟨m, _, hR⟩ := h.keepsUp hg n
    have hshown : Shown (after env g' n).state (after env g m).state :=
      .of_visible (h.sight_eq hR).2.symm
    exact ⟨m, hp.trans hshown.1, Nat.le_trans hc hshown.2⟩
  · intro hg e values inputs
    constructor
    · rintro ⟨n, s, hn, rfl, rfl⟩
      obtain ⟨m, hm, hR⟩ := h.keepsUp hg n
      rw [after_of_ended hn hm] at hR
      obtain ⟨hend, hvis⟩ := h.sight_eq hR
      cases hn' : after env g' n with
      | «at» id s' =>
          rw [hn'] at hend
          exact nomatch hend
      | ended e' s' =>
          rw [hn'] at hend hvis
          cases hend
          obtain ⟨hp, hc⟩ := Prod.mk.inj hvis
          exact ⟨n, s', hn', hp.symm, hc.symm⟩
    · rintro ⟨n, s', hn, rfl, rfl⟩
      obtain ⟨m, _, hR⟩ := h.keepsUp hg n
      rw [hn] at hR
      obtain ⟨hend, hvis⟩ := h.sight_eq hR
      cases hm : after env g m with
      | «at» id s =>
          rw [hm] at hend
          exact nomatch hend
      | ended e' s =>
          rw [hm] at hend hvis
          cases hend
          obtain ⟨hp, hc⟩ := Prod.mk.inj hvis
          exact ⟨m, s, hm, hp, hc⟩

end Simulation

end Run
end FlowVerifier
