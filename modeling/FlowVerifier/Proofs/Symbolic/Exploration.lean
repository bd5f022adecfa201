import FlowVerifier.Proofs.Computation
import FlowVerifier.Symbolic.Search

/-!
# Search step by step

The equations of a search: what it does with the next path, and that it changes
nothing but the log.  `proceed` is one step on its own, and `explore_induction`
the induction along the steps.
-/

namespace FlowVerifier
namespace Symbolic

/-- A search without paths to follow is over. -/
theorem explore_nil {g : FlowGraph} {limits : SearchSettings} {frontier : Frontier Prospect}
    (hp : frontier.pending = []) (f : Findings) :
    explore g limits frontier f = (.ok frontier.started, f) := by
  rw [explore]
  split
  · rfl
  · rename_i p rest hcons
    exact absurd (hp.symm.trans hcons) (by simp)

/-- One step of a search: the next path enters a block. -/
theorem explore_cons {g : FlowGraph} {limits : SearchSettings} {frontier : Frontier Prospect}
    {p : Prospect} {rest : List Prospect} {b : Block} {left : Nat}
    (hp : frontier.pending = p :: rest) (hb : g.block? p.block = some b)
    (hl : p.left = left + 1) (f : Findings) :
    explore g limits frontier f =
      match visit g limits b p.block p.path f with
      | (.error e, f) => (.error e, f)
      | (.ok sides, f) =>
        let others : Frontier Prospect := { frontier with pending := rest }
        let next := others.advance limits.maxPaths (prospects left sides)
        if others.overflows limits.maxPaths (prospects left sides) then
          explore g limits next.narrowed (f.truncate b .paths)
        else explore g limits next f := by
  rw [explore]
  split
  · rename_i hnil
    exact absurd (hnil.symm.trans hp) (by simp)
  · rename_i p' rest' hcons
    obtain ⟨rfl, rfl⟩ := List.cons.inj (hcons.symm.trans hp)
    rw [hb]
    dsimp only
    split
    · rename_i hzero
      exact absurd (hzero.symm.trans hl) (by simp)
    · rename_i left' hl'
      obtain rfl : left' = left := by omega
      rfl

/-! ## One step -/

/-- One step of a search: what is left to follow after the next path has entered its
block. -/
def proceed (g : FlowGraph) (limits : SearchSettings) (p : Prospect) (others : Frontier Prospect)
    (f : Findings) : Except Error (Frontier Prospect) × Findings :=
  match g.block? p.block with
  | none => (.error (.internal (.searchedRemoved p.block)), f)
  | some b =>
    match p.left with
    | 0 => (.ok others, stopBefore b f)
    | left + 1 =>
      match visit g limits b p.block p.path f with
      | (.error e, f) => (.error e, f)
      | (.ok sides, f) =>
        let next := others.advance limits.maxPaths (prospects left sides)
        if others.overflows limits.maxPaths (prospects left sides) then
          (.ok next.narrowed, f.truncate b .paths)
        else (.ok next, f)

/-- A search with a path to follow makes a step and goes on. -/
theorem explore_proceed {g : FlowGraph} {limits : SearchSettings} {frontier : Frontier Prospect}
    {p : Prospect} {rest : List Prospect} (hp : frontier.pending = p :: rest) (f : Findings) :
    explore g limits frontier f =
      match proceed g limits p { frontier with pending := rest } f with
      | (.error e, f) => (.error e, f)
      | (.ok next, f) => explore g limits next f := by
  rw [explore]
  split
  · rename_i hnil
    exact absurd (hnil.symm.trans hp) (by simp)
  · rename_i p' rest' hcons
    obtain ⟨rfl, rfl⟩ := List.cons.inj (hcons.symm.trans hp)
    unfold proceed
    cases g.block? p'.block with
    | none => rfl
    | some b =>
        dsimp only
        split
        · rename_i hl
          rw [hl]
        · rename_i left hl
          rw [hl]
          dsimp only
          rcases visit g limits b p'.block p'.path f with ⟨r, f'⟩
          cases r with
          | error e => rfl
          | ok sides =>
              dsimp only
              split <;> rfl

/-- Induction along the steps of a search. -/
theorem explore_induction (g : FlowGraph) (limits : SearchSettings)
    {motive : Frontier Prospect → Findings → Prop}
    (nil : ∀ frontier f, frontier.pending = [] → motive frontier f)
    (step : ∀ frontier f p rest, frontier.pending = p :: rest →
      (∀ next f', proceed g limits p { frontier with pending := rest } f = (.ok next, f') →
        motive next f') →
      motive frontier f)
    (frontier : Frontier Prospect) (f : Findings) : motive frontier f := by
  induction frontier, f using explore.induct g limits with
  | case1 frontier f hp => exact nil frontier f hp
  | case2 frontier f p rest hp hb =>
      refine step frontier f p rest hp fun next f' h => ?_
      simp [proceed, hb] at h
  | case3 frontier f p rest hp b hb hl ih =>
      refine step frontier f p rest hp fun next f' h => ?_
      simp only [proceed, hb, hl, Prod.mk.injEq, Except.ok.injEq] at h
      obtain ⟨rfl, rfl⟩ := h
      exact ih
  | case4 frontier f p rest hp b hb left hl e f₁ hv =>
      refine step frontier f p rest hp fun next f' h => ?_
      simp [proceed, hb, hl, hv] at h
  | case5 frontier f p rest hp b hb left hl sides f₁ hv others next₁ hover ih =>
      refine step frontier f p rest hp fun next f' h => ?_
      simp only [proceed, hb, hl, hv] at h
      rw [if_pos hover, Prod.mk.injEq, Except.ok.injEq] at h
      obtain ⟨rfl, rfl⟩ := h
      exact ih
  | case6 frontier f p rest hp b hb left hl sides f₁ hv others next₁ hover ih =>
      refine step frontier f p rest hp fun next f' h => ?_
      simp only [proceed, hb, hl, hv] at h
      rw [if_neg hover, Prod.mk.injEq, Except.ok.injEq] at h
      obtain ⟨rfl, rfl⟩ := h
      exact ih

/-! ## The whole search -/

/-- A search changes nothing but the log. -/
theorem outcome_search (limits : SearchSettings) (w : Workspace) :
    outcome (search limits) w =
      ((searchFrom w.graph limits w.log).1,
        { w with log := (searchFrom w.graph limits w.log).2 }) := by
  unfold search
  rw [outcome_bind, outcome_get]
  dsimp only
  rcases searchFrom w.graph limits w.log with ⟨r, log⟩
  cases r <;> rfl

end Symbolic
end FlowVerifier
