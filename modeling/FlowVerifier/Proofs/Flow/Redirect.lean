import FlowVerifier.Proofs.Flow.WellFormed

/-!
# Leading everything around a block

A block that only jumps on is taken out in two steps.  `redirect` leads every
edge, marker, call and role to the target of the block, after which nothing
refers to it, and `removeNode` removes it.

* `Terminator.retarget` is idempotent and its result needs no normalization.
* `outcome_redirect`: on a well-formed graph the first step succeeds, and every
  block is `Block.redirected`.
-/

namespace FlowVerifier

/-! ## Terminators -/

namespace Terminator

variable {old new x : BlockId} {t : Terminator}

theorem eq_jump_of_beq (h : (t == .jump x) = true) : t = .jump x := by
  cases t with
  | jump i =>
      have hi : (i == x) = true := h
      rw [beq_iff_eq.1 hi]
  | finish => exact nomatch h
  | branch test onTrue onFalse => exact nomatch h
  | ret value => exact nomatch h

/-- A block with targets does not return. -/
theorem isReturn_of_mem_targets (h : x ∈ t.targets) : t.isReturn = false := by
  cases t with
  | ret value => exact absurd h (by simp [targets])
  | _ => rfl

theorem normalize_normalize (t : Terminator) : t.normalize.normalize = t.normalize := by
  cases t with
  | branch test onTrue onFalse =>
      by_cases h : onTrue = onFalse <;> simp [normalize, h]
  | _ => rfl

theorem mem_targets_normalize : x ∈ t.normalize.targets ↔ x ∈ t.targets := by
  cases t with
  | branch test onTrue onFalse =>
      by_cases h : onTrue = onFalse <;> simp [normalize, targets, h]
  | _ => rfl

theorem isReturn_normalize (t : Terminator) : t.normalize.isReturn = t.isReturn := by
  cases t with
  | branch test onTrue onFalse =>
      by_cases h : onTrue = onFalse <;> simp [normalize, isReturn, h]
  | _ => rfl

theorem normalize_retarget (t : Terminator) (old new : BlockId) :
    (t.retarget old new).normalize = t.retarget old new := by
  cases t with
  | branch test onTrue onFalse =>
      rw [retarget]
      exact normalize_normalize _
  | _ => rfl

theorem mem_targets_retarget (h : x ∈ (t.retarget old new).targets) :
    x = new ∨ x ∈ t.targets ∧ x ≠ old := by
  have hstep : ∀ y, x = (if y = old then new else y) → x = new ∨ x = y ∧ x ≠ old := by
    intro y hy
    split at hy
    · exact .inl hy
    · rename_i hne
      exact .inr ⟨hy, hy ▸ hne⟩
  cases t with
  | finish => simp [retarget, targets] at h
  | ret value => simp [retarget, targets] at h
  | jump target =>
      rcases hstep target (by simpa [retarget, targets] using h) with rfl | ⟨rfl, hne⟩
      · exact .inl rfl
      · exact .inr ⟨by simp [targets], hne⟩
  | branch test onTrue onFalse =>
      rw [retarget, mem_targets_normalize, targets, List.mem_cons, List.mem_singleton] at h
      rcases h with hx | hx
      · rcases hstep onTrue hx with rfl | ⟨rfl, hne⟩
        · exact .inl rfl
        · exact .inr ⟨by simp [targets], hne⟩
      · rcases hstep onFalse hx with rfl | ⟨rfl, hne⟩
        · exact .inl rfl
        · exact .inr ⟨by simp [targets], hne⟩

/-- A terminator that does not lead to `old` stays as it is. -/
theorem retarget_of_not_mem (hold : old ∉ t.targets)
    (hsides : ∀ {test onTrue onFalse}, t = .branch test onTrue onFalse → onTrue ≠ onFalse) :
    t.retarget old new = t := by
  cases t with
  | finish => rfl
  | ret value => rfl
  | jump target =>
      have hne : target ≠ old := fun h => hold (by simp [targets, h])
      simp [retarget, hne]
  | branch test onTrue onFalse =>
      have hne : onTrue ≠ old ∧ onFalse ≠ old :=
        ⟨fun h => hold (by simp [targets, h]), fun h => hold (by simp [targets, h])⟩
      simp [retarget, normalize, hne, hsides rfl]

theorem isReturn_retarget (t : Terminator) (old new : BlockId) :
    (t.retarget old new).isReturn = t.isReturn := by
  cases t with
  | branch test onTrue onFalse =>
      rw [retarget]
      exact isReturn_normalize _
  | _ => rfl

/-- Branches that come out of normalization have two sides. -/
theorem sides_of_normalize {test : Comparison} {onTrue onFalse : BlockId}
    (h : t.normalize = .branch test onTrue onFalse) : onTrue ≠ onFalse := by
  cases t with
  | branch test' a b =>
      simp only [normalize] at h
      split at h
      · exact absurd h (by simp)
      · rename_i hne
        cases h
        exact hne
  | _ => exact absurd h (by simp [normalize])

theorem retarget_retarget (hne : new ≠ old) (t : Terminator) :
    (t.retarget old new).retarget old new = t.retarget old new := by
  refine retarget_of_not_mem ?_ ?_
  · intro h
    rcases mem_targets_retarget h with h | ⟨_, h⟩
    · exact hne h.symm
    · exact h rfl
  · intro test onTrue onFalse h
    exact sides_of_normalize ((normalize_retarget t old new).trans h)

end Terminator

namespace FlowGraph

variable {g g' : FlowGraph} {old new id i j : BlockId}

theorem soundExit_retarget {t : Terminator} {f : Option FunctionId} (h : SoundExit t f)
    (old new : BlockId) : SoundExit (t.retarget old new) f := by
  constructor
  · intro test onTrue onFalse heq
    exact Terminator.sides_of_normalize ((Terminator.normalize_retarget t old new).trans heq)
  · intro hr
    exact h.returns (by rwa [Terminator.isReturn_retarget] at hr)

/-! ## Leading edges to another block -/

/-- The block with its edges to `old` led to `new`. -/
def retargeted (old new : BlockId) (b : Block) : Block :=
  { b with terminator := b.terminator.retarget old new }

/-- The predecessors are led on one after the other. -/
theorem outcome_forIn_retarget (hne : new ≠ old) (hwf : WellFormed g)
    (hnew : g.contains new = true) {preds : List BlockId}
    (hlive : ∀ p ∈ preds, g.contains p = true) :
    ∃ g', outcome (forIn preds PUnit.unit fun pred _ => do
        let b ← Edit.block pred
        setTerminator pred (b.terminator.retarget old new)
        pure (ForInStep.yield PUnit.unit)) g = (.ok ⟨⟩, g') ∧
      WellFormed g' ∧
      (∀ id, g'.bare? id =
        (g.bare? id).map fun b => if id ∈ preds then retargeted old new b else b) ∧
      g'.functions = g.functions ∧ g'.first = g.first ∧ g'.last = g.last := by
  induction preds generalizing g with
  | nil => exact ⟨g, rfl, hwf, fun id => by simp, rfl, rfl, rfl⟩
  | cons p preds ih =>
      obtain ⟨b, hb⟩ := contains_iff.1 (hlive p (List.mem_cons_self ..))
      have hbare : g.bare? p = some b.bare := bare?_of_block? hb
      have htargets : ∀ t ∈ (b.terminator.retarget old new).targets, g.contains t = true := by
        intro t ht
        rcases Terminator.mem_targets_retarget ht with rfl | ⟨ht, _⟩
        · exact hnew
        · refine hwf.edges.contains (i := p) trivial (mem_successors.2 ⟨b.bare, hbare, ?_⟩)
          simpa [Block.bare, Terminator.isReturn_of_mem_targets ht] using ht
      have hset := outcome_setTerminator (t := b.terminator.retarget old new)
        (hlive p (List.mem_cons_self ..)) (by rwa [Terminator.normalize_retarget])
      rw [Terminator.normalize_retarget] at hset
      have hwf' := hwf.withTerminator hbare (soundExit_retarget (hwf.exits hbare) old new) htargets
      obtain ⟨g', hrun, hwf'', hbares, hfun, hfirst, hlast⟩ := ih hwf'
        (by rwa [contains_withTerminator]) (fun q hq => by
          rw [contains_withTerminator]
          exact hlive q (List.mem_cons_of_mem _ hq))
      refine ⟨g', ?_, hwf'', fun id => ?_, hfun.trans (functions_withTerminator ..),
        hfirst.trans (first_withTerminator ..), hlast.trans (last_withTerminator ..)⟩
      · rw [List.forIn_cons, bind_assoc, outcome_bind_ok (outcome_block hb), bind_assoc,
          outcome_bind_ok hset]
        exact hrun
      · rw [hbares, bare?_withTerminator]
        by_cases hid : p = id
        · subst hid
          rw [if_pos rfl, hbare]
          simp only [Option.map_some, List.mem_cons_self, if_true, Option.some.injEq]
          -- a block that is listed twice is led on only once
          split
          · simp only [retargeted, Terminator.retarget_retarget hne]
          · rfl
        · rw [if_neg hid]
          simp only [List.mem_cons, Ne.symm hid, false_or]

/-! ## Leading markers, calls and roles to another block -/

/-- The graph with every instruction changed. -/
def mapBodies (g : FlowGraph) (f : Instruction → Instruction) : FlowGraph :=
  { g with slots := g.slots.map (Option.map fun b => { b with body := b.body.map f }) }

theorem block?_mapBodies (g : FlowGraph) (f : Instruction → Instruction) (id : BlockId) :
    (g.mapBodies f).block? id =
      (g.block? id).map fun b => { b with body := b.body.map f } := by
  unfold mapBodies block?
  rw [Array.getElem?_map]
  cases h : g.slots[id]? with
  | none => rfl
  | some slot => rfl

theorem bare?_mapBodies (g : FlowGraph) (f : Instruction → Instruction) (id : BlockId) :
    (g.mapBodies f).bare? id =
      (g.bare? id).map fun b => { b with body := b.body.map f } := by
  unfold bare?
  rw [block?_mapBodies, Option.map_map, Option.map_map]
  rfl

theorem predecessors_mapBodies (g : FlowGraph) (f : Instruction → Instruction) (id : BlockId) :
    (g.mapBodies f).predecessors id = g.predecessors id := by
  unfold predecessors
  rw [block?_mapBodies]
  cases g.block? id <;> rfl

theorem WellFormed.mapBodies (h : WellFormed g) (f : Instruction → Instruction) :
    WellFormed (g.mapBodies f) := by
  refine h.transport (predecessors_mapBodies g f) (fun id => ?_) rfl rfl rfl
  · rw [bare?_mapBodies, Option.map_map]
    rfl

/-- The call with its return led to `new`. -/
def redirectedCall (old new : BlockId) (c : Call) : Call :=
  if c.returnTo = old then { c with returnTo := new } else c

/-- The function with its entry and the returns of its calls led to `new`. -/
def redirectedInfo (old new : BlockId) (info : FunctionInfo) : FunctionInfo :=
  { info with
    calls := info.calls.map (redirectedCall old new)
    entry := if info.entry = some old then some new else info.entry }

theorem function?_redirectIn (old new : BlockId) (g : FlowGraph) (f k : FunctionId) :
    (redirectIn old new g f).function? k =
      if f = k then (g.function? k).map (redirectedInfo old new) else g.function? k := by
  unfold redirectIn
  dsimp only
  rw [function?_modifyFunction]
  by_cases hk : f = k
  · subst hk
    simp only [if_true]
    split
    · rw [function?_editCalls, if_pos rfl, Option.map_map]
      rfl
    · -- no call returns to `old`
      rename_i hcalls
      cases hf : g.function? f with
      | none => rfl
      | some info =>
          have hsame : info.calls.map (redirectedCall old new) = info.calls := by
            refine List.map_congr_left (g := id) (fun c hc => ?_) |>.trans (List.map_id _)
            have hne : c.returnTo ≠ old := by
              intro heq
              exact hcalls (by simpa [hf] using ⟨c, hc, heq⟩)
            simp [redirectedCall, hne]
          simp [redirectedInfo, hsame]
  · simp only [if_neg hk]
    split
    · rw [function?_editCalls, if_neg hk]
    · rfl

theorem functionStep_redirectIn (old new : BlockId) :
    FunctionStep (redirectIn old new) (redirectedInfo old new) := by
  refine ⟨fun g f id => ?_, fun g f => ?_, fun g f => ?_, function?_redirectIn old new⟩ <;>
    unfold redirectIn <;> dsimp only <;> split
  · exact bare?_editCalls g f _ id
  · rfl
  · exact first_editCalls g f _
  · rfl
  · exact last_editCalls g f _
  · rfl

/-- Where a redirected call has its ends. -/
theorem redirectedCall_ends (old new : BlockId) (c : Call) :
    (redirectedCall old new c).caller = c.caller ∧
      ((redirectedCall old new c).returnTo = new ∨
        (redirectedCall old new c).returnTo = c.returnTo) := by
  unfold redirectedCall
  split
  · exact ⟨rfl, .inl rfl⟩
  · exact ⟨rfl, .inr rfl⟩

theorem WellFormed.redirectIn (h : WellFormed g) (old : BlockId) (hnew : g.contains new = true)
    (f : FunctionId) : WellFormed (redirectIn old new g f) := by
  refine ⟨?_, ?_, ?_⟩
  · unfold FlowGraph.redirectIn
    dsimp only
    refine Listed.modifyFunction ?_ fun _ => rfl
    split
    · refine h.edges.editCalls (fun _ _ => trivial) fun info hf c hc => ?_
      obtain ⟨c', hc', rfl⟩ := List.mem_map.1 hc
      split
      · exact hnew
      · exact h.returnTo_live hf hc'
    · exact h.edges
  · intro id b hb
    rw [(functionStep_redirectIn old new).bare] at hb
    exact h.exits hb
  · intro id hid
    have hstep := functionStep_redirectIn old new
    rw [hstep.contains]
    rw [mem_designated, hstep.first, hstep.last] at hid
    rcases hid with hid | hid | ⟨k, info, hk, hid⟩
    · exact h.roles id (mem_designated.2 (.inl hid))
    · exact h.roles id (mem_designated.2 (.inr (.inl hid)))
    · rw [function?_redirectIn] at hk
      split at hk
      · obtain ⟨info', hk', rfl⟩ := Option.map_eq_some_iff.1 hk
        rcases hid with hid | hid | ⟨c, hc, hid⟩
        · simp only [redirectedInfo] at hid
          split at hid
          · cases hid
            exact hnew
          · exact h.roles id (mem_designated.2 (.inr (.inr ⟨k, info', hk', .inl hid⟩)))
        · exact h.roles id (mem_designated.2 (.inr (.inr ⟨k, info', hk', .inr (.inl hid)⟩)))
        · obtain ⟨c', hc', rfl⟩ := List.mem_map.1 hc
          obtain ⟨hcaller, hreturn⟩ := redirectedCall_ends old new c'
          rw [hcaller] at hid
          have hrole : ∀ x, c'.caller = x ∨ c'.returnTo = x → g.contains x = true :=
            fun x hx => h.roles x
              (mem_designated.2 (.inr (.inr ⟨k, info', hk', .inr (.inr ⟨c', hc', hx⟩)⟩)))
          rcases hid with hid | hid
          · exact hrole id (.inl hid)
          · rcases hreturn with hr | hr
            · rw [← hid, hr]
              exact hnew
            · exact hrole id (.inr (hr.symm.trans hid))
      · exact h.roles id (mem_designated.2 (.inr (.inr ⟨k, info, hk, hid⟩)))

/-- The block with its edges and markers led to `new`. -/
def redirected (old new : BlockId) (oldName newName : String) (b : Block) : Block :=
  { b with
    terminator := b.terminator.retarget old new
    body := b.body.map (retargetMarker oldName newName) }

/-- Nothing refers to the block but the record of calls it makes. -/
structure Unreferred (g : FlowGraph) (old : BlockId) : Prop where
  edges : ∀ i, old ∉ g.successors i
  first : g.first ≠ some old
  entry : ∀ {f info}, g.function? f = some info → info.entry ≠ some old
  calls : ∀ {f info c}, g.function? f = some info → c ∈ info.calls → c.returnTo ≠ old

/-- The steps of a redirection after the edges were led to `new`. -/
def redirectRest (old new : BlockId) (oldName newName : String) (g : FlowGraph) : FlowGraph :=
  let g := g.mapBodies (retargetMarker oldName newName)
  let g := (List.range g.functions.size).foldl (redirectIn old new) g
  { g with first := if g.first = some old then some new else g.first }

/-- What the last steps of a redirection do with each part of a graph. -/
theorem redirectRest_fields (g : FlowGraph) (old new : BlockId) (oldName newName : String) :
    (∀ id, (redirectRest old new oldName newName g).bare? id =
      (g.bare? id).map fun b => { b with body := b.body.map (retargetMarker oldName newName) }) ∧
    (redirectRest old new oldName newName g).first =
      (if g.first = some old then some new else g.first) ∧
    (redirectRest old new oldName newName g).last = g.last ∧
    ∀ k, (redirectRest old new oldName newName g).function? k =
      (g.function? k).map (redirectedInfo old new) := by
  obtain ⟨-, hbare, hfirst, hlast, hfun⟩ :=
    (functionStep_redirectIn old new).foldl_range (I := fun _ => True) (fun _ _ _ => trivial)
      (g := g.mapBodies (retargetMarker oldName newName)) trivial rfl
  refine ⟨fun id => (hbare id).trans (bare?_mapBodies ..), ?_, hlast, hfun⟩
  simp only [redirectRest]
  rw [hfirst]
  rfl

theorem WellFormed.redirectRest (h : WellFormed g) (old : BlockId)
    (hnew : g.contains new = true) (oldName newName : String) :
    WellFormed (redirectRest old new oldName newName g) := by
  have hnew' : (g.mapBodies (retargetMarker oldName newName)).contains new = true := by
    rw [contains_eq_isSome_bare?, bare?_mapBodies, Option.isSome_map, ← contains_eq_isSome_bare?]
    exact hnew
  obtain ⟨⟨hwf, hnew''⟩, -, hfirst, -, -⟩ :=
    (functionStep_redirectIn old new).foldl_range
      (I := fun g => WellFormed g ∧ g.contains new = true)
      (fun g f hg => ⟨hg.1.redirectIn old hg.2 f,
        ((functionStep_redirectIn old new).contains g f new).trans hg.2⟩)
      ⟨h.mapBodies (retargetMarker oldName newName), hnew'⟩ rfl
  refine ⟨hwf.edges, fun hb => hwf.exits hb, fun id hid => ?_⟩
  rcases mem_designated.1 hid with hid | hid
  · rw [(redirectRest_fields g old new oldName newName).2.1] at hid
    split at hid
    · obtain rfl := Option.some.inj hid
      exact hnew''
    · exact hwf.roles id (mem_designated.2 (.inl (hfirst.trans hid)))
  · exact hwf.roles id (mem_designated.2 (.inr hid))

/-- After the last steps of a redirection nothing refers to the old block, if no edge leads to it
before. -/
theorem unreferred_redirectRest (hne : new ≠ old)
    (hedges : ∀ {i b}, g.bare? i = some b → old ∉ b.terminator.targets)
    (oldName newName : String) : Unreferred (redirectRest old new oldName newName g) old := by
  obtain ⟨hbare, hfirst, -, hfun⟩ := redirectRest_fields g old new oldName newName
  have hinfo : ∀ {k info}, (redirectRest old new oldName newName g).function? k = some info →
      ∃ info', info = redirectedInfo old new info' := by
    intro k info hk
    obtain ⟨info', -, rfl⟩ := Option.map_eq_some_iff.1 ((hfun k).symm.trans hk)
    exact ⟨info', rfl⟩
  have hreturn : ∀ {k info c}, (redirectRest old new oldName newName g).function? k = some info →
      c ∈ info.calls → c.returnTo ≠ old := by
    intro k info c hk hc
    obtain ⟨info', rfl⟩ := hinfo hk
    obtain ⟨c', _, rfl⟩ := List.mem_map.1 hc
    unfold redirectedCall
    split
    · exact hne
    · assumption
  refine ⟨fun i hi => ?_, ?_, fun {f info} hf => ?_, hreturn⟩
  · obtain ⟨b, hb, hi⟩ := mem_successors.1 hi
    rw [hbare] at hb
    obtain ⟨b', hb', rfl⟩ := Option.map_eq_some_iff.1 hb
    dsimp only at hi
    split at hi
    · obtain ⟨f, info, _, hf, c, hc, heq⟩ := hi
      exact hreturn hf hc heq
    · exact hedges hb' hi
  · rw [hfirst]
    split
    · exact fun heq => hne (Option.some.inj heq)
    · assumption
  · obtain ⟨info', rfl⟩ := hinfo hf
    simp only [redirectedInfo]
    split
    · exact fun heq => hne (Option.some.inj heq)
    · assumption

/-- **A redirection** succeeds on a well-formed graph, and afterwards nothing refers
to the old block. -/
theorem outcome_redirect (h : WellFormed g) (hne : new ≠ old) {bo bn : Block}
    (hold : g.block? old = some bo) (hnew : g.block? new = some bn) :
    ∃ g', outcome (redirect old new) g = (.ok (), g') ∧ WellFormed g' ∧ Unreferred g' old ∧
      (∀ id, g'.bare? id = (g.bare? id).map (redirected old new bo.name bn.name)) ∧
      g'.first = (if g.first = some old then some new else g.first) ∧ g'.last = g.last ∧
      ∀ k, g'.function? k = (g.function? k).map (redirectedInfo old new) := by
  have hpreds : ∀ p ∈ g.predecessors old, g.contains p = true := by
    intro p hp
    obtain ⟨b, hb, _⟩ := mem_successors.1 ((h.edges p old).1 hp).2
    exact contains_of_bare? hb
  obtain ⟨g₁, hrun, hwf, hbare, hfun, hfirst, hlast⟩ :=
    outcome_forIn_retarget hne h (contains_iff.2 ⟨bn, hnew⟩) hpreds
  -- a block that is no predecessor has no edge to lead on
  have hbare' : ∀ id, g₁.bare? id = (g.bare? id).map (retargeted old new) := by
    intro id
    rw [hbare]
    cases hb : g.bare? id with
    | none => rfl
    | some b =>
        simp only [Option.map_some, Option.some.injEq]
        split
        · rfl
        · rename_i hid
          have hmem : old ∉ b.terminator.targets := by
            intro hmem
            refine hid ((h.edges id old).2 ⟨trivial, mem_successors.2 ⟨b, hb, ?_⟩⟩)
            simpa [Terminator.isReturn_of_mem_targets hmem] using hmem
          rw [retargeted, Terminator.retarget_of_not_mem hmem (h.exits hb).sides]
  have hnew₁ : g₁.contains new = true := by
    rw [contains_eq_isSome_bare?, hbare', Option.isSome_map, ← contains_eq_isSome_bare?]
    exact contains_iff.2 ⟨bn, hnew⟩
  have hedges : ∀ {i b}, g₁.bare? i = some b → old ∉ b.terminator.targets := by
    intro i b hb hmem
    rw [hbare'] at hb
    obtain ⟨b', _, rfl⟩ := Option.map_eq_some_iff.1 hb
    rcases Terminator.mem_targets_retarget hmem with heq | ⟨_, hno⟩
    · exact hne heq.symm
    · exact hno rfl
  obtain ⟨hbares, hfirst', hlast', hfun'⟩ := redirectRest_fields g₁ old new bo.name bn.name
  refine ⟨redirectRest old new bo.name bn.name g₁, ?_, hwf.redirectRest old hnew₁ bo.name bn.name,
    unreferred_redirectRest hne hedges bo.name bn.name, fun id => ?_, ?_, ?_, fun k => ?_⟩
  · rw [redirect, outcome_bind_ok (outcome_block hold), outcome_bind_ok (outcome_block hnew),
      outcome_bind, outcome_get]
    dsimp only
    rw [outcome_bind_ok hrun]
    rfl
  · rw [hbares, hbare', Option.map_map]
    rfl
  · rw [hfirst', hfirst]
  · rw [hlast', hlast]
  · rw [hfun', function?, hfun, ← function?]

end FlowGraph
end FlowVerifier
