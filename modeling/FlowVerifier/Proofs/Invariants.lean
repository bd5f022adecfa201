import FlowVerifier.Proofs.Computation
import FlowVerifier.Workspace

/-!
# Invariants of computations

A computation `Maintains` a property if its final state has it whenever its first state
does, also where it fails.  It `Keeps` a part of its state if that part is in the end what
it was: the computation maintains every property that only this part decides.  Both pass
from the parts of a computation to the whole.
-/

namespace FlowVerifier

variable {σ α β γ : Type} {I : σ → Prop} {φ : σ → γ}

/-- The computation leaves a state with the property in such a state, also where it
fails. -/
def Maintains (I : σ → Prop) (x : ExceptT Error (StateM σ) α) : Prop :=
  ∀ s, I s → I (outcome x s).2

namespace Maintains

theorem pure (a : α) : Maintains I (pure a : ExceptT Error (StateM σ) α) := fun _ h => h

theorem throw (e : Error) : Maintains I (throw e : ExceptT Error (StateM σ) α) := fun _ h => h

theorem get : Maintains I (get : ExceptT Error (StateM σ) σ) := fun _ h => h

theorem modify {f : σ → σ} (hf : ∀ s, I s → I (f s)) :
    Maintains I (modify f : ExceptT Error (StateM σ) PUnit) := hf

theorem bind {x : ExceptT Error (StateM σ) α} {f : α → ExceptT Error (StateM σ) β}
    (hx : Maintains I x) (hf : ∀ a, Maintains I (f a)) : Maintains I (x >>= f) := by
  intro s hs
  have ht := hx s hs
  rcases hrun : outcome x s with ⟨r, t⟩
  rw [hrun] at ht
  rw [outcome_bind, hrun]
  cases r with
  | error e => exact ht
  | ok a => exact hf a t ht

theorem forIn {l : List α} {init : β} {f : α → β → ExceptT Error (StateM σ) (ForInStep β)}
    (hf : ∀ a b, Maintains I (f a b)) : Maintains I (forIn l init f) := by
  induction l generalizing init with
  | nil => exact .pure init
  | cons a l ih =>
      rw [List.forIn_cons]
      refine (hf a init).bind fun r => ?_
      cases r with
      | done b => exact .pure b
      | yield b => exact ih

theorem foldlM {l : List α} {init : β} {f : β → α → ExceptT Error (StateM σ) β}
    (hf : ∀ b a, Maintains I (f b a)) : Maintains I (l.foldlM f init) := by
  induction l generalizing init with
  | nil => exact .pure init
  | cons a l ih =>
      rw [List.foldlM_cons]
      exact (hf init a).bind fun _ => ih

theorem mapM {l : List α} {f : α → ExceptT Error (StateM σ) β} (hf : ∀ a, Maintains I (f a)) :
    Maintains I (l.mapM f) := by
  induction l with
  | nil => exact .pure []
  | cons a l ih =>
      rw [List.mapM_cons]
      exact (hf a).bind fun _ => ih.bind fun _ => .pure _

theorem filterMapM {l : List α} {f : α → ExceptT Error (StateM σ) (Option β)}
    (hf : ∀ a ∈ l, Maintains I (f a)) : Maintains I (l.filterMapM f) := by
  induction l with
  | nil => exact .pure []
  | cons a l ih =>
      rw [List.forall_mem_cons] at hf
      rw [List.filterMapM_cons]
      refine hf.1.bind fun b => ?_
      cases b with
      | none => exact ih hf.2
      | some b => exact (ih hf.2).bind fun _ => .pure _

/-- It makes no difference whether the result is used. -/
theorem of_discard {x : ExceptT Error (StateM σ) α} {b : β}
    (h : Maintains I (x >>= fun _ => Pure.pure b)) : Maintains I x := by
  intro s hs
  have hleft := h s hs
  rw [outcome_bind] at hleft
  rcases hrun : outcome x s with ⟨r, t⟩
  rw [hrun] at hleft
  cases r <;> exact hleft

/-- A computation that may fail before it starts. -/
theorem guarded {c : Prop} [Decidable c] {x y : ExceptT Error (StateM σ) α}
    (hx : Maintains I y → Maintains I x) (hy : Maintains I y) :
    Maintains I (if c then x else y) := by
  split
  · exact hx hy
  · exact hy

/-- An edit of the graph in a workspace. -/
theorem edit {I : FlowGraph → Prop} {x : Edit α} (hx : Maintains I x) :
    Maintains (fun w : Workspace => I w.graph) (Transform.edit x) := by
  intro w hw
  have hleft : I (x.runOn w.graph).2 := hx w.graph hw
  unfold Transform.edit
  rw [outcome_bind_ok (outcome_get _)]
  dsimp only
  rw [outcome_bind_ok (outcome_set _ _)]
  rcases hrun : x.runOn w.graph with ⟨r, g⟩
  rw [hrun] at hleft
  cases r <;> exact hleft

/-- The graph of a workspace has the property when it is looked at. -/
theorem graph_bind {I : FlowGraph → Prop} {f : FlowGraph → Transform α}
    (hf : ∀ g, I g → Maintains (fun w : Workspace => I w.graph) (f g)) :
    Maintains (fun w : Workspace => I w.graph) (Transform.graph >>= f) :=
  fun w hw => hf w.graph hw w hw

end Maintains

/-- The computation leaves a part of its state alone, also where it fails. -/
def Keeps (φ : σ → γ) (x : ExceptT Error (StateM σ) α) : Prop :=
  ∀ s, φ (outcome x s).2 = φ s

namespace Keeps

theorem iff_maintains {x : ExceptT Error (StateM σ) α} :
    Keeps φ x ↔ ∀ c, Maintains (fun s => φ s = c) x := by
  constructor
  · rintro h _ s rfl
    exact h s
  · intro h s
    exact h (φ s) s rfl

theorem pure (a : α) : Keeps φ (pure a : ExceptT Error (StateM σ) α) := fun _ => rfl

theorem throw (e : Error) : Keeps φ (throw e : ExceptT Error (StateM σ) α) := fun _ => rfl

theorem get : Keeps φ (get : ExceptT Error (StateM σ) σ) := fun _ => rfl

theorem modify {f : σ → σ} (hf : ∀ s, φ (f s) = φ s) :
    Keeps φ (modify f : ExceptT Error (StateM σ) PUnit) := hf

theorem bind {x : ExceptT Error (StateM σ) α} {f : α → ExceptT Error (StateM σ) β}
    (hx : Keeps φ x) (hf : ∀ a, Keeps φ (f a)) : Keeps φ (x >>= f) :=
  iff_maintains.2 fun c => (iff_maintains.1 hx c).bind fun a => iff_maintains.1 (hf a) c

theorem forIn {l : List α} {init : β} {f : α → β → ExceptT Error (StateM σ) (ForInStep β)}
    (hf : ∀ a b, Keeps φ (f a b)) : Keeps φ (forIn l init f) :=
  iff_maintains.2 fun c => .forIn fun a b => iff_maintains.1 (hf a b) c

theorem foldlM {l : List α} {init : β} {f : β → α → ExceptT Error (StateM σ) β}
    (hf : ∀ b a, Keeps φ (f b a)) : Keeps φ (l.foldlM f init) :=
  iff_maintains.2 fun c => .foldlM fun b a => iff_maintains.1 (hf b a) c

/-- A computation that may fail before it starts. -/
theorem guarded {c : Prop} [Decidable c] {x y : ExceptT Error (StateM σ) α}
    (hx : Keeps φ y → Keeps φ x) (hy : Keeps φ y) : Keeps φ (if c then x else y) := by
  split
  · exact hx hy
  · exact hy

end Keeps

end FlowVerifier
