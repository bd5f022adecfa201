import FlowVerifier.Proofs.Flow.Names
import FlowVerifier.Proofs.Flow.WellFormed
import FlowVerifier.Proofs.Run.Alike
import FlowVerifier.Workspace

/-!
# Sound transformations

A transformation is `Sound` if it succeeds on every proper graph and leaves a proper
graph that runs like the one it was given.  Sound transformations can be put together
(`Sound.bind`, `Sound.forIn`), so that the passes are looked at one by one.
-/

namespace FlowVerifier
namespace Simplify

open FlowGraph Run

variable {α β : Type} {lax : Prop} {g g' : FlowGraph} {w w' : Workspace}

/-- What the simplifier takes for granted: the graph breaks no rule, and its blocks
have distinct names. -/
structure Proper (g : FlowGraph) : Prop where
  wellFormed : WellFormed g
  names : UniqueNames g

/-- The second graph is proper and runs like the first. -/
structure StandsIn (lax : Prop) (g g' : FlowGraph) : Prop where
  proper : Proper g'
  runs : ∀ env : Environment, env.checked = false → Preserves lax env g g'

theorem StandsIn.refl (h : Proper g) : StandsIn lax g g := ⟨h, fun env _ => .refl lax env g⟩

theorem StandsIn.trans {g'' : FlowGraph} (h : StandsIn lax g g') (h' : StandsIn lax g' g'') :
    StandsIn lax g g'' :=
  ⟨h'.proper, fun env hfree => (h.runs env hfree).trans (h'.runs env hfree)⟩

/-- On this workspace the transformation succeeds and leaves a graph that stands in for
the one it was given. -/
def SoundOn (lax : Prop) (w : Workspace) (x : Transform α) : Prop :=
  ∃ a w', outcome x w = (.ok a, w') ∧ StandsIn lax w.graph w'.graph

/-- The transformation is sound on every proper graph. -/
def Sound (lax : Prop) (x : Transform α) : Prop := ∀ w, Proper w.graph → SoundOn lax w x

/-- The rest of a transformation starts where the first part has left the graph. -/
theorem SoundOn.after {x y : Transform α} {v : Workspace} (hx : outcome x w = outcome y v)
    (hrun : StandsIn lax w.graph v.graph) (hy : SoundOn lax v y) : SoundOn lax w x := by
  obtain ⟨a, v', ha, hrun'⟩ := hy
  exact ⟨a, v', hx.trans ha, hrun.trans hrun'⟩

/-- The graph that a transformation looks at is the one it is given. -/
theorem SoundOn.graph_bind {f : FlowGraph → Transform α} (h : SoundOn lax w (f w.graph)) :
    SoundOn lax w (Transform.graph >>= f) := by
  obtain ⟨a, w', ha, hrun⟩ := h
  have hgraph : outcome Transform.graph w = (.ok w.graph, w) := rfl
  exact ⟨a, w', by rw [outcome_bind_ok hgraph, ha], hrun⟩

namespace Sound

theorem pure (a : α) : Sound lax (pure a : Transform α) :=
  fun w hw => ⟨a, w, outcome_pure a w, .refl hw⟩

theorem bind {x : Transform α} {f : α → Transform β} (hx : Sound lax x)
    (hf : ∀ a, Sound lax (f a)) : Sound lax (x >>= f) := by
  intro w hw
  obtain ⟨a, w', hrun, hstand⟩ := hx w hw
  exact .after (outcome_bind_ok hrun) hstand (hf a w' hstand.proper)

/-- Sound steps for all elements of a list. -/
theorem mapM {l : List α} {f : α → Transform β} (hf : ∀ a, Sound lax (f a)) :
    Sound lax (l.mapM f) := by
  induction l with
  | nil => exact .pure []
  | cons a l ih =>
      rw [List.mapM_cons]
      exact (hf a).bind fun b => ih.bind fun bs => .pure (b :: bs)

end Sound

/-- The transformation succeeds and leaves the graph alone. -/
def Silent (x : Transform α) : Prop :=
  ∀ w, ∃ a w', outcome x w = (.ok a, w') ∧ w'.graph = w.graph

namespace Silent

theorem sound {x : Transform α} (h : Silent x) : Sound lax x := by
  intro w hw
  obtain ⟨a, w', hx, hsame⟩ := h w
  exact ⟨a, w', hx, by rw [hsame]; exact .refl hw⟩

theorem pure (a : α) : Silent (pure a : Transform α) := fun w => ⟨a, w, outcome_pure a w, rfl⟩

theorem bind {x : Transform α} {f : α → Transform β} (hx : Silent x) (hf : ∀ a, Silent (f a)) :
    Silent (x >>= f) := by
  intro w
  obtain ⟨a, w', ha, hsame⟩ := hx w
  obtain ⟨b, w'', hb, hsame'⟩ := hf a w'
  exact ⟨b, w'', by rw [outcome_bind_ok ha, hb], hsame'.trans hsame⟩

theorem graph : Silent Transform.graph := fun w => ⟨w.graph, w, rfl, rfl⟩

theorem record (event : Event) : Silent (Transform.record event) :=
  fun w => ⟨(), _, outcome_modify _ w, rfl⟩

theorem recordOnce (kind : EventKind) (node : String) (line : Option Nat) (message : String) :
    Silent (Transform.recordOnce kind node line message) :=
  fun w => ⟨(), _, outcome_modify _ w, rfl⟩

/-- Silent steps for all elements of a list. -/
theorem forIn {l : List α} {f : α → PUnit → Transform (ForInStep PUnit)}
    (hf : ∀ a, Silent (f a PUnit.unit)) : Silent (ForIn.forIn l PUnit.unit f) := by
  induction l with
  | nil => exact .pure PUnit.unit
  | cons a l ih =>
      rw [List.forIn_cons]
      refine (hf a).bind fun r => ?_
      cases r with
      | done b => exact .pure b
      | yield b => exact ih

end Silent

/-- An edit that succeeds changes the graph and nothing else. -/
theorem outcome_edit {e : Edit α} {a : α} (h : outcome e w.graph = (.ok a, g')) :
    outcome (Transform.edit e) w = (.ok a, { w with graph := g' }) := by
  have hrun : e.runOn w.graph = (.ok a, g') := h
  unfold Transform.edit
  rw [outcome_bind, outcome_get]
  dsimp only
  rw [hrun]
  rfl

/-! ## Changes of one block -/

/-- One block was replaced by another. -/
structure Rewritten (g g' : FlowGraph) (id : BlockId) (b' : Block) : Prop where
  wellFormed : WellFormed g'
  bare : ∀ j, g'.bare? j = if id = j then some b' else g.bare? j
  functions : g'.functions = g.functions
  first : g'.first = g.first
  last : g'.last = g.last

namespace Rewritten

variable {id : BlockId} {b b' b'' : Block}

theorem found (h : Rewritten g g' id b') : g'.bare? id = some b' := by rw [h.bare, if_pos rfl]

theorem refl (h : WellFormed g) (hb : g.bare? id = some b) : Rewritten g g id b := by
  refine ⟨h, fun j => ?_, rfl, rfl, rfl⟩
  split
  · rename_i heq
    rw [← heq, hb]
  · rfl

theorem trans {g'' : FlowGraph} (h : Rewritten g g' id b') (h' : Rewritten g' g'' id b'') :
    Rewritten g g'' id b'' := by
  refine ⟨h'.wellFormed, fun j => ?_, h'.functions.trans h.functions, h'.first.trans h.first,
    h'.last.trans h.last⟩
  rw [h'.bare, h.bare]
  split <;> rfl

/-- Another body. -/
theorem setBody (h : WellFormed g) (hb : g.bare? id = some b) (body : List Instruction) :
    Rewritten g (g.modifyBlock id fun b => { b with body }) id { b with body } := by
  refine ⟨h.setBody id body, fun j => ?_, rfl, rfl, rfl⟩
  obtain ⟨b', hb', rfl⟩ := Option.map_eq_some_iff.1 hb
  rw [bare?_modifyBlock]
  split
  · rename_i heq
    subst heq
    rw [hb']
    rfl
  · rfl

/-- Another terminator. -/
theorem withTerminator (h : WellFormed g) (hb : g.bare? id = some b) {t : Terminator}
    (hsound : SoundExit t b.function) (ht : ∀ target ∈ t.targets, g.contains target = true) :
    Rewritten g (g.withTerminator id t) id { b with terminator := t } := by
  refine ⟨h.withTerminator hb hsound ht, fun j => ?_, functions_withTerminator g id t,
    first_withTerminator g id t, last_withTerminator g id t⟩
  rw [bare?_withTerminator]
  split
  · rename_i heq
    subst heq
    rw [hb]
    rfl
  · rfl

/-- The body of a block is replaced. -/
theorem outcome_setBody (hb : g.bare? id = some b) (body : List Instruction) :
    outcome (FlowGraph.setBody id body) g =
      (.ok (), g.modifyBlock id fun b => { b with body }) := by
  obtain ⟨b', hb', _⟩ := Option.map_eq_some_iff.1 hb
  unfold FlowGraph.setBody
  rw [outcome_bind_ok (outcome_block hb')]
  rfl

theorem names (h : Rewritten g g' id b') (hb : g.bare? id = some b) (hname : b'.name = b.name)
    (j : BlockId) : (g'.bare? j).map Block.name = (g.bare? j).map Block.name := by
  rw [h.bare]
  split
  · rename_i heq
    subst heq
    rw [hb, Option.map_some, Option.map_some, hname]
  · rfl

theorem proper (h : Rewritten g g' id b') (hg : Proper g) (hb : g.bare? id = some b)
    (hname : b'.name = b.name) : Proper g' := by
  refine ⟨h.wellFormed, hg.names.congr fun j c hc => ?_⟩
  have hj := h.names hb hname j
  rw [hc] at hj
  obtain ⟨c', hc', heq⟩ := Option.map_eq_some_iff.1 hj.symm
  exact ⟨c', hc', heq⟩

/-- A graph in which a block was replaced by one that runs alike runs alike. -/
theorem preserves (h : Rewritten g g' id b') {env : Environment} (hg : UniqueNames g)
    (hb : g.bare? id = some b) (hname : b'.name = b.name)
    (hrun : ∀ s, runBlock env g.idOf? b' s = runBlock env g.idOf? b s) :
    Preserves lax env g g' := by
  have hresolve : g'.idOf? = g.idOf? := funext (idOf?_congr hg (h.names hb hname))
  have hstep : ∀ c, step env g c = step env g' c := by
    intro c
    cases c with
    | ended e s => rfl
    | «at» j s =>
        by_cases heq : id = j
        · subst heq
          rw [step_at hb, step_at h.found, hresolve, hrun]
        · have hsame : g'.bare? j = g.bare? j := by rw [h.bare, if_neg heq]
          cases hj : g.bare? j with
          | none =>
              have hnone : g.block? j = none := Option.map_eq_none_iff.1 hj
              have hnone' : g'.block? j = none := Option.map_eq_none_iff.1 (hsame.trans hj)
              simp only [step, hnone, hnone']
          | some c => rw [step_at hj, step_at (hsame.trans hj), hresolve]
  refine Simulation.preserves (R := Eq) ⟨?_, fun h => h ▸ rfl, ?_⟩
  · unfold start
    rw [h.first]
  · rintro c _ rfl
    exact .inl ⟨0, hstep c⟩

end Rewritten

end Simplify
end FlowVerifier
