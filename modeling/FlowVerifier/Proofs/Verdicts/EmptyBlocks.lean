import FlowVerifier.Proofs.Simplify.Edits
import FlowVerifier.Proofs.Simplify.EmptyBlocks
import FlowVerifier.Proofs.Symbolic.Simulation

/-!
# Detours and the search

The search of a graph without a detour stays where it is while the search of the graph
with the detour goes through the empty block.  It notices nothing if three things hold:

* No branch chooses between the empty block and its target, since its test is no longer
  made, and the two sides are no longer told apart.
* No marker names the empty block.  What the search remembers of a block, it remembers
  with the marker on the stack.
* No path comes back to the empty block, where it would be widened.
-/

namespace FlowVerifier
namespace Symbolic

open Exec FlowGraph Simplify

variable {g g' : FlowGraph} {limits : SearchSettings} {old new id : BlockId}
  {oldName newName : String} {b bo bn : Block}

/-! ## Blocks that are led on -/

/-- Does the terminator still make its test when `old` is led to `new`? -/
def keepsTest (old new : BlockId) : Terminator → Bool
  | .branch _ onTrue onFalse => standIn old new onTrue != standIn old new onFalse
  | _ => true

/-- Does the block neither choose between the two blocks, nor push a marker of the first? -/
def sparesDetour (old new : BlockId) (oldName : String) (b : Block) : Bool :=
  keepsTest old new b.terminator && !b.pushedStates.contains oldName

theorem leadsAlike_retarget {e : Terminator} (h : keepsTest old new e = true) :
    LeadsAlike { leads := LedTo old new } e (e.retarget old new) := by
  cases e with
  | finish => exact .finish
  | ret value => exact .refl (by simp [Terminator.targets]) fun _ _ => List.not_mem_nil
  | jump target => exact .jump rfl
  | branch test onTrue onFalse =>
      show LeadsAlike _ _
        (Terminator.branch test (standIn old new onTrue) (standIn old new onFalse)).normalize
      rw [Terminator.normalize, if_neg (by simpa [keepsTest] using h)]
      exact .branch ⟨fun _ _ => List.not_mem_nil, fun _ _ => List.not_mem_nil⟩ rfl rfl

theorem map_retargetMarker {body : List Instruction} (h : .pushState oldName ∉ body) :
    body.map (retargetMarker oldName newName) = body := by
  refine (List.map_congr_left fun i hi => ?_).trans (List.map_id body)
  cases i with
  | pushState name =>
      have hne : name ≠ oldName := by
        rintro rfl
        exact h hi
      simp only [retargetMarker, if_neg hne, id]
  | _ => rfl

/-- **A block that is led on** does what the block does. -/
theorem blocksAlike_redirected (h : Elided g g' old new bo.name bn.name)
    (hg : FlowGraph.UniqueNames g) (hne : new ≠ old) (hold : g.bare? old = some bo)
    (hnew : g.bare? new = some bn) (hresult : g'.resultTypes = g.resultTypes)
    (hs : sparesDetour old new bo.name b = true) {b' : Block}
    (hb' : b'.bare = redirected old new bo.name bn.name b.bare) :
    BlocksAlike { leads := LedTo old new } g g' b b' := by
  obtain ⟨-, hfunction, hbody, hexit⟩ := fields_of_bare hb'
  simp only [sparesDetour, Bool.and_eq_true, Bool.not_eq_true', List.contains_eq_mem,
    decide_eq_false_iff_not] at hs
  have hmarkers : .pushState bo.name ∉ b.body := fun hi =>
    hs.2 (List.mem_filterMap.2 ⟨_, hi, rfl⟩)
  refine .of_untouched hresult hfunction (hbody.trans (map_retargetMarker hmarkers)) ?_ ?_
  · intro i hi
    refine ⟨fun _ _ _ _ => List.not_mem_nil, fun _ _ => List.not_mem_nil,
      fun _ _ => List.not_mem_nil, ?_⟩
    rintro name rfl
    have hname : name ≠ bo.name := by
      rintro rfl
      exact hmarkers hi
    have halike := h.namesAlike hg hne hold hnew name
    rw [if_neg hname] at halike
    rcases halike with ⟨hn, hn'⟩ | ⟨i, j, hn, hn', hij⟩
    · rw [hn, hn']
      exact ⟨rfl, by simp⟩
    · have hi : i ≠ old := by
        rintro rfl
        obtain ⟨c, hc, hcname⟩ := FlowGraph.name_of_idOf? hn
        obtain rfl := Option.some.inj (hold.symm.trans hc)
        exact hname hcname.symm
      obtain rfl : i = j := (standIn_of_ne hi).symm.trans hij
      rw [hn, hn']
      refine ⟨rfl, fun k hk => ?_⟩
      obtain rfl := Option.some.inj hk
      exact hij
  · rw [hexit]
    exact leadsAlike_retarget hs.1

/-! ## The pass -/

variable {next others others' : Frontier Prospect} {a a' : Prospect} {f f₁ : Findings}

theorem not_ledTo_self (hd : Detour g old new bo) : ¬ LedTo old new old old := fun heq =>
  hd.distinct (by simpa [LedTo, standIn] using heq)

/-- **Through the empty block**: the second search is already where the detour leads. -/
theorem proceed_detour (hd : Detour g old new bo) (ha : a.Alike { leads := LedTo old new } a')
    (hold : a.block = old) (ho : Frontier.Alike { leads := LedTo old new } others others')
    (hnew : a.path.visits.get? (old, a.path.stack.topMarker?) = none)
    (hs : proceed g limits a others f = (.ok next, f₁)) (ht : f₁.truncated = false)
    (f' : Findings) :
    Frontier.Alike { leads := LedTo old new } next
      { others' with pending := a' :: others'.pending } ∧ SameNews f f₁ f' f' := by
  subst hold
  obtain ⟨hfirst, hpath⟩ := ha.path.enter_left (not_ledTo_self hd) hnew limits.maxWidenings
  obtain ⟨c, hc, hbare⟩ := Option.map_eq_some_iff.1 hd.found
  obtain ⟨hpop, -, hbody, hexit⟩ := fields_of_bare hbare
  have hran : outcome (executeAll g.idOf? c.name c.body)
      ⟨(a.path.enter a.block limits.maxWidenings).2, #[]⟩ =
      (.ok (), ⟨(a.path.enter a.block limits.maxWidenings).2, #[]⟩) := by
    rw [hbody, hd.empty]
    rfl
  obtain ⟨left, hl, rfl, hlog⟩ := proceed_of_jump hc (hexit.trans hd.jumps)
    (by rw [hfirst]; rfl) hran hs ht (hpop.trans hd.populated)
  have hblock : a'.block = new := by
    have hlead : standIn a.block new a.block = a'.block := ha.block
    rw [← hlead, standIn, if_pos rfl]
  refine ⟨⟨.cons ⟨?_, hpath, ?_⟩ ho.pending, ho.started⟩, .silent hlog rfl rfl⟩
  · rw [hblock]
    exact standIn_of_ne hd.distinct
  · have hle := ha.left
    rw [hl] at hle
    exact (Nat.le_succ left).trans hle

/-- The searches with and without a detour. -/
theorem searchedAlike_of_elided (h : Elided g g' old new bo.name bn.name)
    (hg : UniqueNames g) (hd : Detour g old new bo) (hnew : g.bare? new = some bn)
    (hresult : g'.resultTypes = g.resultTypes) (honce : EnteredOnce g limits old)
    (hspares : ∀ id b, g.block? id = some b → Enters g limits id →
      sparesDetour old new bo.name b = true) :
    SearchedAlike limits g g' := by
  have hself : ∀ {id}, id ≠ old → LedTo old new id id := standIn_of_ne
  refine searchedAlike_of_simulation (R := Frontier.Alike { leads := LedTo old new }) ?_ ?_ ?_ ?_
  · intro first hf
    refine ⟨standIn old new first, ?_, .cons ⟨rfl, .start, le_rfl⟩ .nil, rfl⟩
    rw [h.first, hf]
    by_cases heq : first = old <;> simp [standIn, heq]
  · intro hf
    rw [h.first, hf]
    rfl
  · exact fun F F' hF hp => hF.nil hp
  · intro F F' a rest next f f₁ hF hR hp hs ht hreached f'
    obtain ⟨a', rest', hp', ha, hrest⟩ := hR.cons hp
    by_cases hold : a.block = old
    · have hnew := honce F f a rest hF hp hold
      obtain ⟨hnext, hnews⟩ := proceed_detour hd ha hold hrest hnew hs ht f'
      refine .inl ⟨⟨?_, hnext.started⟩, hnews⟩
      rw [hp']
      exact hnext.pending
    · have hblock : a'.block = a.block := (show standIn old new a.block = a'.block from ha.block) ▸
        standIn_of_ne hold
      have hblocks : ∀ b, g.block? a.block = some b → ∃ b', g'.block? a.block = some b' ∧
          b'.populated = b.populated ∧ (f₁.isReached a.block = true →
            EnteredAlike { leads := LedTo old new } limits g g' a.block b b' a.path a'.path) := by
        intro b hb
        have hbare := h.bare_of_ne hold
        rw [bare?, bare?, hb] at hbare
        obtain ⟨b', hb', hsame⟩ := Option.map_eq_some_iff.1 hbare
        refine ⟨b', hb', (fields_of_bare hsame).1, fun hr => ?_⟩
        exact (blocksAlike_redirected h hg hd.distinct hd.found hnew hresult
          (hspares _ b hb (hreached _ hr)) hsame).entered ha.path (hself hold)
            (a.path.covered_nil _)
      obtain ⟨next', f₁', hs', hnext, hnews⟩ :=
        proceed_alike ha hblock (hself hold) hrest hs ht (a.path.covered_nil _) hblocks f'
      exact .inr ⟨a', rest', next', f₁', hp', hs', hnext, hnews⟩

/-- **Taking a detour out** goes unnoticed by the search, if it takes no test out, no marker
names it, and no path comes back to it. -/
theorem searchedAlike_elideEmptyBlock (hg : Proper g) (honce : EnteredOnce g limits id)
    (hspares : ∀ target, detourTarget? g id = some target → ∀ j b, g.block? j = some b →
      Enters g limits j → sparesDetour id target (g.label id) b = true) :
    SearchedAlike limits g (g.after (elideEmptyBlock id)) := by
  have hgraph : outcome Transform.graph { graph := g } = (.ok g, { graph := g }) := rfl
  cases htarget : detourTarget? g id with
  | none =>
      have hsame : g.after (elideEmptyBlock id) = g := by
        show (outcome (elideEmptyBlock id) { graph := g }).2.graph = g
        rw [elideEmptyBlock, outcome_bind_ok hgraph, htarget]
        rfl
      rw [hsame]
      exact .refl limits g
  | some target =>
      obtain ⟨bo, bn, g₁, g₂, hd, hnew, hredirect, hremove, -, helided⟩ :=
        exists_elided hg.wellFormed htarget
      have hafter : g.after (elideEmptyBlock id) = g₂ := by
        show (outcome (elideEmptyBlock id) { graph := g }).2.graph = g₂
        rw [elideEmptyBlock, outcome_bind_ok hgraph, htarget]
        dsimp only
        rw [outcome_bind_ok (outcome_edit hredirect),
          outcome_bind_ok (outcome_edit (w := { graph := g₁ }) hremove)]
        rfl
      have hresult : g₂.resultTypes = g.resultTypes :=
        hafter ▸ keepsResults_apply .emptyBlocks id { graph := g }
      have hlabel : g.label id = bo.name := by
        obtain ⟨c, hc, rfl⟩ := Option.map_eq_some_iff.1 hd.found
        simp [FlowGraph.label, FlowGraph.name?, hc, Block.bare]
      rw [hafter]
      refine searchedAlike_of_elided helided hg.names hd hnew hresult honce ?_
      rw [← hlabel]
      exact hspares target htarget

end Symbolic
end FlowVerifier
