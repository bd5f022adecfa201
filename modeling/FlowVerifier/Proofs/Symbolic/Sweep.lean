import FlowVerifier.Proofs.Flow.Names
import FlowVerifier.Proofs.Flow.Remainder
import FlowVerifier.Proofs.Graph.DepthFirst
import FlowVerifier.Proofs.Symbolic.DeadCode

/-!
# What dead code elimination spares

Dead blocks are removed one after the other, and each removal cuts edges, may make another
block an exit and may even break the graph.

* `Needed` is the least set of blocks that has to stay; `mem_deadBlocks` says that all other
  blocks are tried.
* `Spared` is the invariant along the removals: needed blocks are there with their bodies,
  and their terminators are `Pruned` by the branches that lost a side.
* `Swept` says what a run of removals has removed and reported.
* `eliminateDeadCode_spares` is the result.
-/

namespace FlowVerifier

open FlowGraph

namespace Symbolic

variable {g h h' : FlowGraph} {s : SearchSummary} {w w' : Workspace} {id i j : BlockId}
  {gone b : Block} {K : BlockId → Prop}

/-! ## The blocks that have to stay -/

/-- The least set with the first block and the blocks that were entered that is closed under
jumps and under markers. -/
inductive Needed (g : FlowGraph) (s : SearchSummary) : BlockId → Prop where
  | first {id : BlockId} : g.first = some id → Needed g s id
  | entered {id : BlockId} : g.contains id = true → s.isReached id = true → Needed g s id
  | jump {i id : BlockId} {b : Block} :
      Needed g s i → g.block? i = some b → b.terminator = .jump id → Needed g s id
  | marker {i id : BlockId} {b : Block} {name : String} :
      Needed g s i → g.block? i = some b → name ∈ b.pushedStates → g.idOf? name = some id →
        Needed g s id

theorem contains_of_idOf? {name : String} (hid : g.idOf? name = some id) :
    g.contains id = true := by
  obtain ⟨b, hb, -⟩ := name_of_idOf? hid
  exact contains_of_bare? hb

theorem lt_size_of_contains (hid : g.contains id = true) : id < g.slots.size := by
  obtain ⟨b, hb⟩ := contains_iff.1 hid
  exact lt_size_of_block? hb

theorem jump_live (hg : WellFormed g) (hb : g.block? i = some b) (hjump : b.terminator = .jump id) :
    g.contains id = true := by
  have hbare : g.bare? i = some b.bare := bare?_of_block? hb
  exact (hg.target_live hbare (by simp [Block.bare, hjump, Terminator.targets])).2

theorem Needed.live (hg : WellFormed g) (hid : Needed g s id) : g.contains id = true := by
  cases hid with
  | first hfirst => exact hg.roles id (mem_designated.2 (.inl hfirst))
  | entered hlive _ => exact hlive
  | jump _ hb hjump => exact jump_live hg hb hjump
  | marker _ _ _ hname => exact contains_of_idOf? hname

theorem mem_keptWith :
    id ∈ keptWith g i ↔ ∃ b, g.block? i = some b ∧ (b.terminator = .jump id ∨
      ∃ name ∈ b.pushedStates, g.idOf? name = some id) := by
  unfold keptWith
  cases g.block? i with
  | none => simp
  | some b =>
      simp only [List.mem_append, List.mem_filterMap, Option.some.injEq, exists_eq_left']
      rw [or_comm]
      refine or_congr ?_ Iff.rfl
      cases b.terminator <;> simp [eq_comm]

theorem mem_keptAnyway :
    id ∈ keptAnyway g s ↔ g.contains id = true ∧ s.isReached id = true ∨ g.first = some id := by
  simp [keptAnyway, mem_ids]

theorem successors_keeping (g : FlowGraph) (s : SearchSummary) (i : BlockId) :
    (keeping g s).successors i =
      if i < g.slots.size then keptWith g i
      else if i = g.slots.size then keptAnyway g s else [] := by
  unfold keeping Adjacency.successors
  rw [Array.getElem?_push]
  simp only [Array.size_map, Array.size_range]
  by_cases hi : i = g.slots.size
  · subst hi
    simp
  · rw [if_neg hi]
    split
    · rename_i hlt
      simp [hlt]
    · rename_i hge
      simp [hge]

theorem size_keeping (g : FlowGraph) (s : SearchSummary) :
    (keeping g s).size = g.slots.size + 1 := by
  simp [keeping, Adjacency.size]

theorem inRange_keeping (hg : WellFormed g) (s : SearchSummary) : (keeping g s).InRange := by
  intro l hl id hid
  rw [size_keeping]
  refine Nat.lt_succ_of_lt (lt_size_of_contains ?_)
  simp only [keeping, Array.mem_push, Array.mem_map] at hl
  rcases hl with ⟨i, -, rfl⟩ | rfl
  · obtain ⟨b, hb, hjump | ⟨name, -, hname⟩⟩ := mem_keptWith.1 hid
    · exact jump_live hg hb hjump
    · exact contains_of_idOf? hname
  · rcases mem_keptAnyway.1 hid with ⟨hlive, -⟩ | hfirst
    · exact hlive
    · exact hg.roles id (mem_designated.2 (.inl hfirst))

/-- **The traversal finds the blocks that have to stay.** -/
theorem isReached_kept_iff (hg : WellFormed g) (hid : g.contains id = true) :
    (kept g s).isReached id = true ↔ Needed g s id := by
  have hstart : g.slots.size < (keeping g s).size := by simp [size_keeping]
  unfold kept
  rw [Adjacency.isReached_depthFirst (inRange_keeping hg s) hstart]
  have hroot : ∀ j, j ∈ (keeping g s).successors g.slots.size ↔
      g.contains j = true ∧ s.isReached j = true ∨ g.first = some j := by
    intro j
    rw [successors_keeping, if_neg (Nat.lt_irrefl _), if_pos rfl, mem_keptAnyway]
  have hedge : ∀ i, Needed g s i → (keeping g s).successors i = keptWith g i := fun i hi => by
    rw [successors_keeping, if_pos (lt_size_of_contains (hi.live hg))]
  constructor
  · intro hreach
    have hall : id = g.slots.size ∨ Needed g s id := by
      refine hreach.induct (p := fun j => j = g.slots.size ∨ Needed g s j) (.inl rfl) ?_
      rintro i j hi hj
      right
      rcases hi with rfl | hi
      · rcases (hroot j).1 hj with ⟨hlive, hentered⟩ | hfirst
        · exact .entered hlive hentered
        · exact .first hfirst
      · rw [hedge i hi] at hj
        obtain ⟨b, hb, hjump | ⟨name, hpush, hname⟩⟩ := mem_keptWith.1 hj
        · exact .jump hi hb hjump
        · exact .marker hi hb hpush hname
    exact hall.resolve_left (Nat.ne_of_lt (lt_size_of_contains hid))
  · intro hneeded
    clear hid
    induction hneeded with
    | first hfirst => exact (Adjacency.Reaches.refl _ _).step ((hroot _).2 (.inr hfirst))
    | entered hlive hentered =>
        exact (Adjacency.Reaches.refl _ _).step ((hroot _).2 (.inl ⟨hlive, hentered⟩))
    | jump hi hb hjump ih =>
        refine ih.step ?_
        rw [hedge _ hi]
        exact mem_keptWith.2 ⟨_, hb, .inl hjump⟩
    | marker hi hb hpush hname ih =>
        refine ih.step ?_
        rw [hedge _ hi]
        exact mem_keptWith.2 ⟨_, hb, .inr ⟨_, hpush, hname⟩⟩

/-- The dead blocks that are exits, or are not. -/
def deadOf (g : FlowGraph) (s : SearchSummary) (isExit : Bool) : List BlockId :=
  (g.ids.filter fun id => !(kept g s).isReached id).filter
    fun id => (g.block? id).any Block.isExit == isExit

theorem deadBlocks_eq (g : FlowGraph) (s : SearchSummary) :
    deadBlocks g s = deadOf g s false ++ deadOf g s true := by
  simp [deadBlocks, deadOf]

theorem mem_deadOf (hg : WellFormed g) {isExit : Bool} :
    id ∈ deadOf g s isExit ↔
      ∃ b, g.block? id = some b ∧ b.isExit = isExit ∧ ¬ Needed g s id := by
  unfold deadOf
  rw [List.mem_filter, List.mem_filter, mem_ids]
  constructor
  · rintro ⟨⟨hlive, hdead⟩, hexit⟩
    obtain ⟨b, hb⟩ := contains_iff.1 hlive
    refine ⟨b, hb, by simpa [hb] using hexit, fun hneeded => ?_⟩
    rw [(isReached_kept_iff hg hlive).2 hneeded] at hdead
    exact absurd hdead (by simp)
  · rintro ⟨b, hb, hexit, hdead⟩
    have hlive : g.contains id = true := contains_iff.2 ⟨b, hb⟩
    refine ⟨⟨hlive, ?_⟩, by simp [hb, hexit]⟩
    rw [Bool.not_eq_true', ← Bool.not_eq_true, isReached_kept_iff hg hlive]
    exact hdead

/-! ## Terminators -/

/-- A terminator after removals: a branch that has lost one side jumps to the other, and
nothing is said of one that has lost both. -/
def Pruned (live : BlockId → Bool) (t t' : Terminator) : Prop :=
  match t with
  | .branch _ onTrue onFalse =>
    match live onTrue, live onFalse with
    | true, true => t' = t
    | true, false => t' = .jump onTrue
    | false, true => t' = .jump onFalse
    | false, false => True
  | _ => t' = t

theorem pruned_branch_iff {live : BlockId → Bool} {test : Comparison} {onTrue onFalse : BlockId}
    {t' : Terminator} :
    Pruned live (.branch test onTrue onFalse) t' ↔
      (live onTrue = true → live onFalse = true → t' = .branch test onTrue onFalse) ∧
        (live onTrue = true → live onFalse = false → t' = .jump onTrue) ∧
        (live onTrue = false → live onFalse = true → t' = .jump onFalse) := by
  cases htrue : live onTrue <;> cases hfalse : live onFalse <;> simp [Pruned, htrue, hfalse]

/-- **One removal** prunes a terminator further. -/
theorem Pruned.remove {live live' : BlockId → Bool} {t c c' : Terminator}
    (hpruned : Pruned live t c) (hlive : ∀ j, live' j = (live j && j != id))
    (hjump : ∀ target, t = .jump target → target ≠ id)
    (hsides : ∀ {test onTrue onFalse}, t = .branch test onTrue onFalse → onTrue ≠ onFalse)
    (hunlinked : id ∉ c.targets → c' = c)
    (hbranch : ∀ test onTrue onFalse, c = .branch test onTrue onFalse →
      (onTrue = id → onFalse ≠ id → c' = .jump onFalse) ∧
        (onTrue ≠ id → onFalse = id → c' = .jump onTrue)) : Pruned live' t c' := by
  cases t with
  | finish =>
      obtain rfl : c = .finish := hpruned
      exact hunlinked (by simp [Terminator.targets])
  | ret value =>
      obtain rfl : c = .ret value := hpruned
      exact hunlinked (by simp [Terminator.targets])
  | jump target =>
      obtain rfl : c = .jump target := hpruned
      exact hunlinked (by simp [Terminator.targets, (hjump target rfl).symm])
  | branch test onTrue onFalse =>
      have hne := hsides rfl
      obtain ⟨hboth, honTrue, honFalse⟩ := pruned_branch_iff.1 hpruned
      have hjumps : ∀ target, target ≠ id → c = .jump target → c' = .jump target := by
        rintro target htarget rfl
        exact hunlinked (by simp [Terminator.targets, htarget.symm])
      refine pruned_branch_iff.2 ⟨fun hx hy => ?_, fun hx hy => ?_, fun hx hy => ?_⟩ <;>
        simp only [hlive, Bool.and_eq_true, Bool.and_eq_false_iff, bne_iff_ne,
          bne_eq_false_iff_eq] at hx hy
      · have hbranching := hboth hx.1 hy.1
        exact (hunlinked (by simp [hbranching, Terminator.targets, hx.2.symm, hy.2.symm])).trans
          hbranching
      · cases hlost : live onFalse with
        | false => exact hjumps onTrue hx.2 (honTrue hx.1 hlost)
        | true =>
            have hid : onFalse = id := hy.resolve_left (by simp [hlost])
            exact (hbranch test onTrue onFalse (hboth hx.1 hlost)).2 hx.2 hid
      · cases hlost : live onTrue with
        | false => exact hjumps onFalse hy.2 (honFalse hlost hy.1)
        | true =>
            have hid : onTrue = id := hx.resolve_left (by simp [hlost])
            exact (hbranch test onTrue onFalse (hboth hlost hy.1)).1 hid hy.2

/-! ## The invariant -/

/-- The blocks in `K` are all there, with their bodies and pruned terminators, and blocks
that are still there have their names. -/
structure Spared (g : FlowGraph) (K : BlockId → Prop) (h : FlowGraph) : Prop where
  entered : Entered (fun _ => True) h
  live : ∀ j, K j → h.contains j = true
  blocks : ∀ {j b b'}, g.bare? j = some b → h.bare? j = some b' →
    b'.name = b.name ∧ b'.body = b.body ∧ (K j → Pruned h.contains b.terminator b'.terminator)

/-- Jumps from blocks in `K` stay in `K`. -/
def JumpClosed (g : FlowGraph) (K : BlockId → Prop) : Prop :=
  ∀ {j b target}, K j → g.bare? j = some b → b.terminator = .jump target → K target

theorem spared_self (hg : WellFormed g) (hlive : ∀ j, K j → g.contains j = true) :
    Spared g K g := by
  refine ⟨hg.entered _, hlive, fun {j b b'} hb hb' => ?_⟩
  obtain rfl := Option.some.inj (hb.symm.trans hb')
  refine ⟨rfl, rfl, fun _ => ?_⟩
  cases hterm : b.terminator with
  | branch test onTrue onFalse =>
      have htrue := (hg.target_live hb (t := onTrue) (by simp [hterm, Terminator.targets])).2
      have hfalse := (hg.target_live hb (t := onFalse) (by simp [hterm, Terminator.targets])).2
      simp [Pruned, htrue, hfalse]
  | _ => rfl

/-- **One removal** of a block outside of `K`. -/
theorem Spared.remove (hg : WellFormed g) (hclosed : JumpClosed g K) (hspared : Spared g K h)
    (hout : ¬ K id) (hb : h.block? id = some gone)
    (hrun : outcome (removeNode id) h = (.ok (), h')) : Spared g K h' := by
  obtain ⟨hentered, hgone, hrest, hblocks⟩ := removeNode_remainder hspared.entered hb hrun
  have hlive : ∀ j, h'.contains j = (h.contains j && j != id) := by
    intro j
    by_cases hj : j = id
    · simp [hj, hgone]
    · simp [hj, hrest j hj]
  refine ⟨hentered, fun j hj => ?_, fun {j b b'} hbare hbare' => ?_⟩
  · have hne : j ≠ id := fun heq => hout (heq ▸ hj)
    rw [hrest j hne]
    exact hspared.live j hj
  · obtain ⟨c, hc, hremainder⟩ := hblocks j b' hbare'
    obtain ⟨hname, hbody, hpruned⟩ := hspared.blocks hbare hc
    refine ⟨hremainder.name.trans hname, hremainder.body.trans hbody, fun hj => ?_⟩
    refine (hpruned hj).remove hlive (fun target hjump heq => ?_) (hg.exits hbare).sides
      hremainder.unlinked hremainder.branch
    exact hout (heq ▸ hclosed hj hbare hjump)

/-! ## The run -/

/-- The report of the removal of a block. -/
def removalOf (b : Block) : Event where
  kind := .blockRemoved
  node := some b.name
  line := b.line
  message := "removed unreachable block"

theorem outcome_tryRemove_error {e : Error} {g' : FlowGraph}
    (hfail : outcome (removeNode id) w.graph = (.error e, g'))
    (he : ∀ name, e ≠ .ambiguousExit name) :
    outcome (tryRemove id) w = (.error e, { w with graph := g' }) := by
  unfold tryRemove
  rw [outcome_bind, outcome_get]
  dsimp only
  rw [show (removeNode id).runOn w.graph = (.error e, g') from hfail, outcome_bind, outcome_set]
  cases e with
  | ambiguousExit name => exact absurd rfl (he name)
  | _ => rfl

theorem ofKind_reported (log : Log) (b : Block) :
    ((log.record (removalOf b)).recordOnce .warning b.name b.line "unreachable code").ofKind
      .blockRemoved = (log.ofKind .blockRemoved).push (removalOf b) := by
  have hrecord : (log.record (removalOf b)).ofKind .blockRemoved =
      (log.ofKind .blockRemoved).push (removalOf b) := by
    simp [Log.record, Log.ofKind, removalOf]
  unfold Log.recordOnce
  split
  · exact hrecord
  · rw [← hrecord]
    simp [Log.record, Log.ofKind]

/-- **One dead block** is gone already, or is an exit that stays, or is removed and
reported. -/
theorem removeDead_cases {name : Option String}
    (hrun : outcome (removeDead id) w = (.ok name, w')) :
    (w.graph.contains id = false ∧ name = none ∧ w' = w) ∨
    ∃ gone, w.graph.block? id = some gone ∧
      (gone.isExit = true ∧ 1 < (others id gone).length ∧ name = none ∧ w' = w ∨
        outcome (removeNode id) w.graph = (.ok (), w'.graph) ∧ name = some gone.name ∧
          w'.log.ofKind .blockRemoved = (w.log.ofKind .blockRemoved).push (removalOf gone)) := by
  have hgraph : outcome Transform.graph w = (.ok w.graph, w) := rfl
  unfold removeDead at hrun
  rw [outcome_bind_ok hgraph] at hrun
  cases hb : w.graph.block? id with
  | none =>
      rw [hb] at hrun
      cases hrun
      exact .inl ⟨by simp [contains, hb], rfl, rfl⟩
  | some gone =>
      rw [hb] at hrun
      dsimp only at hrun
      refine .inr ⟨gone, rfl, ?_⟩
      rcases removeNode_run hb with ⟨hexit, hmany, hfail⟩ | ⟨-, r, cut, hsever, hok⟩
      · rw [outcome_bind_ok (outcome_tryRemove hfail (.inr ⟨_, rfl, rfl⟩))] at hrun
        cases hrun
        exact .inl ⟨hexit, hmany, rfl, rfl⟩
      · cases r with
        | error e =>
            obtain ⟨label, rfl⟩ := severEach_error hsever
            rw [outcome_bind_error (outcome_tryRemove_error hok (by simp))] at hrun
            exact absurd (congrArg Prod.fst hrun) (by simp)
        | ok heir =>
            rw [outcome_bind_ok (outcome_tryRemove hok (.inl ⟨rfl, rfl⟩))] at hrun
            cases hrun
            exact .inr ⟨hok, rfl, ofKind_reported w.log gone⟩

/-- What every removal of a list keeps, the whole run keeps. -/
theorem run_induct {I : FlowGraph → Prop} {ids : List BlockId} {names : List String}
    (hstep : ∀ id ∈ ids, ∀ {h gone h'}, I h → h.block? id = some gone →
      outcome (removeNode id) h = (.ok (), h') → I h')
    (hI : I w.graph) (hrun : outcome (ids.filterMapM removeDead) w = (.ok names, w')) :
    I w'.graph := by
  induction ids generalizing w names with
  | nil =>
      cases hrun
      exact hI
  | cons id ids ih =>
      obtain ⟨name, w₁, rest, hfirst, hrest, -⟩ := outcome_filterMapM_cons_iff.1 hrun
      refine ih (fun i hi => hstep i (List.mem_cons_of_mem _ hi)) ?_ hrest
      rcases removeDead_cases hfirst with ⟨-, -, rfl⟩ | ⟨gone, hb, ⟨-, -, -, rfl⟩ | ⟨hok, -⟩⟩
      · exact hI
      · exact hI
      · exact hstep id (List.mem_cons_self ..) hI hb hok

/-- What a run has removed, named and reported. -/
structure Swept (w : Workspace) (removed : List BlockId) (names : List String) (w' : Workspace) :
    Prop where
  entered : Entered (fun _ => True) w'.graph
  shrinks : ∀ j, w'.graph.contains j = true → w.graph.contains j = true
  nodup : removed.Nodup
  mem : ∀ j, j ∈ removed ↔ w.graph.contains j = true ∧ w'.graph.contains j = false
  names : names.map some = removed.map w.graph.name?
  reported : w'.log.ofKind .blockRemoved = w.log.ofKind .blockRemoved ++
    (removed.filterMap fun j => (w.graph.block? j).map removalOf).toArray

theorem swept_nil (hentered : Entered (fun _ => True) w.graph) : Swept w [] [] w :=
  ⟨hentered, fun _ hj => hj, List.nodup_nil, fun j => by simp, rfl, by simp⟩

/-- A removal, and then the rest of the run. -/
theorem Swept.cons {w₁ : Workspace} {removed : List BlockId} {names : List String}
    (hentered : Entered (fun _ => True) w.graph) (hb : w.graph.block? id = some gone)
    (hok : outcome (removeNode id) w.graph = (.ok (), w₁.graph))
    (hlog : w₁.log.ofKind .blockRemoved = (w.log.ofKind .blockRemoved).push (removalOf gone))
    (hswept : Swept w₁ removed names w') : Swept w (id :: removed) (gone.name :: names) w' := by
  obtain ⟨-, hgone, hrest, hblocks⟩ := removeNode_remainder hentered hb hok
  have hdead : id ∉ removed := by
    intro hmem
    rw [((hswept.mem id).1 hmem).1] at hgone
    exact absurd hgone (by simp)
  -- the blocks that are removed later have their names and their lines
  have hlater : ∀ j ∈ removed, ∃ b b', w.graph.block? j = some b ∧ w₁.graph.block? j = some b' ∧
      b'.name = b.name ∧ b'.line = b.line := by
    intro j hj
    obtain ⟨b', hb'⟩ := contains_iff.1 ((hswept.mem j).1 hj).1
    obtain ⟨c, hc, hremainder⟩ := hblocks j b'.bare (bare?_of_block? hb')
    obtain ⟨b, hb, rfl⟩ := Option.map_eq_some_iff.1 hc
    exact ⟨b, b', hb, hb', hremainder.name, hremainder.line⟩
  refine ⟨hswept.entered, fun j hj => ?_, hswept.nodup.cons hdead, fun j => ?_, ?_, ?_⟩
  · by_cases hne : j = id
    · rw [hne]
      exact contains_iff.2 ⟨gone, hb⟩
    · rw [← hrest j hne]
      exact hswept.shrinks j hj
  · rw [List.mem_cons, hswept.mem]
    by_cases hne : j = id
    · have hlost : w'.graph.contains id = false := by
        by_contra hlive
        rw [hswept.shrinks id (by simpa using hlive)] at hgone
        exact absurd hgone (by simp)
      simp [hne, hlost, contains_iff.2 ⟨gone, hb⟩]
    · rw [hrest j hne]
      simp [hne]
  · rw [List.map_cons, List.map_cons, hswept.names]
    refine congrArg₂ List.cons (by simp [name?, hb]) (List.map_congr_left fun j hj => ?_)
    obtain ⟨b, b', hb, hb', hname, -⟩ := hlater j hj
    simp [name?, hb, hb', hname]
  · have hreports : (removed.filterMap fun j => (w₁.graph.block? j).map removalOf) =
        removed.filterMap fun j => (w.graph.block? j).map removalOf := by
      refine List.filterMap_congr fun j hj => ?_
      obtain ⟨b, b', hb, hb', hname, hline⟩ := hlater j hj
      simp [hb, hb', removalOf, hname, hline]
    rw [hswept.reported, hlog, hreports, List.filterMap_cons, hb]
    simp

/-- **A run of removals.** -/
theorem exists_swept {ids : List BlockId} {names : List String}
    (hentered : Entered (fun _ => True) w.graph)
    (hrun : outcome (ids.filterMapM removeDead) w = (.ok names, w')) :
    ∃ removed, Swept w removed names w' := by
  induction ids generalizing w names with
  | nil =>
      cases hrun
      exact ⟨[], swept_nil hentered⟩
  | cons id ids ih =>
      obtain ⟨name, w₁, rest, hfirst, hrest, rfl⟩ := outcome_filterMapM_cons_iff.1 hrun
      rcases removeDead_cases hfirst with
        ⟨-, rfl, rfl⟩ | ⟨gone, hb, ⟨-, -, rfl, rfl⟩ | ⟨hok, rfl, hlog⟩⟩
      · exact ih hentered hrest
      · exact ih hentered hrest
      · obtain ⟨removed, hswept⟩ := ih (removeNode_remainder hentered hb hok).1 hrest
        exact ⟨id :: removed, hswept.cons hentered hb hok hlog⟩

/-- **A block that was tried and stays** was an exit with several predecessors at its turn. -/
theorem stays_at_turn {ids : List BlockId} {names : List String}
    (hentered : Entered (fun _ => True) w.graph)
    (hrun : outcome (ids.filterMapM removeDead) w = (.ok names, w')) (hid : id ∈ ids)
    (hlive : w'.graph.contains id = true) :
    ∃ before after names₁ w₁ gone, ids = before ++ id :: after ∧
      outcome (before.filterMapM removeDead) w = (.ok names₁, w₁) ∧
      w₁.graph.block? id = some gone ∧ gone.isExit = true ∧ 1 < (others id gone).length := by
  induction ids generalizing w names with
  | nil => exact absurd hid (by simp)
  | cons i ids ih =>
      obtain ⟨name, w₁, rest, hfirst, hrest, -⟩ := outcome_filterMapM_cons_iff.1 hrun
      have hentered₁ : Entered (fun _ => True) w₁.graph := by
        have hone : outcome ([i].filterMapM removeDead) w = (.ok (name.toList ++ []), w₁) :=
          outcome_filterMapM_cons_iff.2 ⟨name, w₁, [], hfirst, rfl, rfl⟩
        obtain ⟨_, hswept⟩ := exists_swept hentered hone
        exact hswept.entered
      have hlive₁ : w₁.graph.contains id = true := by
        obtain ⟨_, hswept⟩ := exists_swept hentered₁ hrest
        exact hswept.shrinks id hlive
      -- the block is tried now, or later
      by_cases hlater : id ∈ ids
      · obtain ⟨before, after, names₁, w₂, gone, rfl, hbefore, hgone⟩ := ih hentered₁ hrest hlater
        exact ⟨i :: before, after, _, w₂, gone, rfl,
          outcome_filterMapM_cons_iff.2 ⟨name, w₁, names₁, hfirst, hbefore, rfl⟩, hgone⟩
      · obtain rfl : id = i := (List.mem_cons.1 hid).resolve_right hlater
        rcases removeDead_cases hfirst with
          ⟨hgone, -, rfl⟩ | ⟨gone, hb, ⟨hexit, hmany, -, -⟩ | ⟨hok, -, -⟩⟩
        · rw [hlive₁] at hgone
          exact absurd hgone (by simp)
        · exact ⟨[], ids, [], w, gone, rfl, rfl, hb, hexit, hmany⟩
        · rw [(removeNode_remainder hentered hb hok).2.1] at hlive₁
          exact absurd hlive₁ (by simp)

/-! ## Ordinary blocks -/

/-- Blocks that are still there are exits if they were. -/
def Flagged (g h : FlowGraph) : Prop :=
  ∀ j b b', g.bare? j = some b → h.bare? j = some b' → b'.isExit = b.isExit

/-- **Ordinary blocks** are all removed: no removal of one makes another an exit. -/
theorem ordinary_removed {ids : List BlockId} {names : List String} (hg : WellFormed w.graph)
    (hids : ∀ id ∈ ids, ∃ b, w.graph.block? id = some b ∧ b.isExit = false)
    (hrun : outcome (ids.filterMapM removeDead) w = (.ok names, w')) (hid : id ∈ ids) :
    w'.graph.contains id = false := by
  by_contra hlive
  obtain ⟨before, after, names₁, w₁, gone, rfl, hbefore, hgone, hexit, -⟩ :=
    stays_at_turn (hg.entered _) hrun hid (by simpa using hlive)
  have hkept : Entered (fun _ => True) w₁.graph ∧ Flagged w.graph w₁.graph := by
    refine run_induct (I := fun h => Entered (fun _ => True) h ∧ Flagged w.graph h)
      (fun i hi h gone h' hI hb hok => ?_) ⟨hg.entered _, fun j b b' hb hb' => ?_⟩ hbefore
    · obtain ⟨hentered, -, -, hblocks⟩ := removeNode_remainder hI.1 hb hok
      obtain ⟨b, hb₀, hordinary⟩ := hids i (List.mem_append_left _ hi)
      have hflag : gone.isExit = b.isExit :=
        hI.2 i b.bare gone.bare (bare?_of_block? hb₀) (bare?_of_block? hb)
      refine ⟨hentered, fun j c c' hc hc' => ?_⟩
      obtain ⟨d, hd, hremainder⟩ := hblocks j c' hc'
      exact (hremainder.isExit (hflag.trans hordinary)).trans (hI.2 j c d hc hd)
    · obtain rfl := Option.some.inj (hb.symm.trans hb')
      rfl
  obtain ⟨b, hb, hordinary⟩ := hids id (List.mem_append_right _ (List.mem_cons_self ..))
  have hflag : gone.isExit = b.isExit :=
    hkept.2 id b.bare gone.bare (bare?_of_block? hb) (bare?_of_block? hgone)
  rw [hflag, hordinary] at hexit
  exact absurd hexit (by simp)

/-! ## Dead code elimination -/

theorem outcome_eliminateDeadCode (ht : s.truncated = false) (w : Workspace) :
    outcome (eliminateDeadCode s) w = outcome ((deadBlocks w.graph s).filterMapM removeDead) w := by
  have hgraph : outcome Transform.graph w = (.ok w.graph, w) := rfl
  unfold eliminateDeadCode
  simp only [ht, Bool.false_eq_true, if_false]
  rw [outcome_bind_ok hgraph]

theorem not_needed_of_mem_deadBlocks (hg : WellFormed g) (hid : id ∈ deadBlocks g s) :
    ¬ Needed g s id := by
  rw [deadBlocks_eq, List.mem_append, mem_deadOf hg, mem_deadOf hg] at hid
  rcases hid with ⟨_, -, -, hdead⟩ | ⟨_, -, -, hdead⟩ <;> exact hdead

/-- **What is needed stays**, also where dead code elimination fails in the middle. -/
theorem Needed.stays (hg : WellFormed g) (hid : Needed g s id) (log : Log) :
    ((eliminateDeadCode s).runOn { graph := g, log }).2.graph.contains id = true := by
  cases ht : s.truncated with
  | true =>
      unfold eliminateDeadCode
      simp only [ht, if_true]
      exact hid.live hg
  | false =>
      refine (congrArg (fun r => r.2.graph.contains id)
        (outcome_eliminateDeadCode ht { graph := g, log })).trans ?_
      refine Maintains.filterMapM (I := fun w : Workspace => w.graph.contains id = true)
        (fun i hi => maintains_removeDead (I := fun h => h.contains id = true) fun h hlive => ?_)
        _ (hid.live hg)
      have hne : id ≠ i := by
        rintro rfl
        exact not_needed_of_mem_deadBlocks hg hi hid
      exact (keeps_contains_removeNode hne h).trans hlive

/-- The invariant holds at the end of a sweep. -/
theorem spared_of_sweep {log : Log} {names : List String} (hg : WellFormed g)
    (hsweep : outcome ((deadBlocks g s).filterMapM removeDead) { graph := g, log } =
      (.ok names, w')) : Spared g (Needed g s) w'.graph := by
  have hclosed : JumpClosed g (Needed g s) := by
    intro j b target hj hb hjump
    obtain ⟨c, hc, rfl⟩ := Option.map_eq_some_iff.1 hb
    exact .jump hj hc hjump
  exact run_induct (fun id hid h gone h' hI =>
      hI.remove hg hclosed (not_needed_of_mem_deadBlocks hg hid))
    (spared_self hg fun j hj => hj.live hg) hsweep

/-- **Dead code elimination spares what is needed.**  Where it succeeds on a valid graph after
a search that was not cut short, all needed blocks are still there with their bodies.  Their
terminators are the same but for branches that have lost a side.  A block that is not needed
stays only if it is an exit and listed several predecessors at its turn.  The names returned
are those of the blocks removed, and each removal is reported once. -/
theorem eliminateDeadCode_spares {log : Log} {names : List String} (hvalid : g.validate = .ok ())
    (ht : s.truncated = false)
    (hrun : (eliminateDeadCode s).runOn { graph := g, log } = (.ok names, w')) :
    (∀ id, Needed g s id → ∃ b b', g.block? id = some b ∧ w'.graph.block? id = some b' ∧
        b'.name = b.name ∧ b'.body = b.body ∧
        Pruned w'.graph.contains b.terminator b'.terminator) ∧
      (∀ id b, g.block? id = some b → ¬ Needed g s id → w'.graph.contains id = true →
        b.isExit = true ∧ ∃ before after names₁ w₁ gone,
          deadBlocks g s = before ++ id :: after ∧
            (before.filterMapM removeDead).runOn { graph := g, log } = (.ok names₁, w₁) ∧
            w₁.graph.block? id = some gone ∧ 1 < (others id gone).length) ∧
      ∃ removed : List BlockId, removed.Nodup ∧
        (∀ id, id ∈ removed ↔ g.contains id = true ∧ w'.graph.contains id = false) ∧
        names.map some = removed.map g.name? ∧
        w'.log.ofKind .blockRemoved = log.ofKind .blockRemoved ++
          (removed.filterMap fun id => (g.block? id).map removalOf).toArray := by
  have hg : WellFormed g := validate_iff.1 hvalid
  have hsweep : outcome ((deadBlocks g s).filterMapM removeDead) { graph := g, log } =
      (.ok names, w') := (outcome_eliminateDeadCode ht { graph := g, log }).symm.trans hrun
  have hspared := spared_of_sweep hg hsweep
  refine ⟨fun id hid => ?_, fun id b hb hout hlive => ?_, ?_⟩
  · obtain ⟨b, hb⟩ := contains_iff.1 (hid.live hg)
    obtain ⟨b', hb'⟩ := contains_iff.1 (hspared.live id hid)
    have hbare : g.bare? id = some b.bare := bare?_of_block? hb
    have hbare' : w'.graph.bare? id = some b'.bare := bare?_of_block? hb'
    obtain ⟨hname, hbody, hpruned⟩ := hspared.blocks hbare hbare'
    exact ⟨b, b', hb, hb', hname, hbody, hpruned hid⟩
  · have hid : id ∈ deadBlocks g s := by
      rw [deadBlocks_eq, List.mem_append, mem_deadOf hg, mem_deadOf hg]
      cases hexit : b.isExit with
      | false => exact .inl ⟨b, hb, hexit, hout⟩
      | true => exact .inr ⟨b, hb, hexit, hout⟩
    obtain ⟨before, after, names₁, w₁, gone, hturn, hbefore, hgone, -, hmany⟩ :=
      stays_at_turn (hg.entered _) hsweep hid hlive
    refine ⟨?_, before, after, names₁, w₁, gone, hturn, hbefore, hgone, hmany⟩
    by_contra hordinary
    rw [Bool.not_eq_true] at hordinary
    rw [deadBlocks_eq] at hsweep
    obtain ⟨_, w₂, _, hfirst, hrest, -⟩ := outcome_filterMapM_append hsweep
    have hremoved := ordinary_removed (w := { graph := g, log }) hg (fun i hi => by
      obtain ⟨c, hc, hflag, -⟩ := (mem_deadOf hg).1 hi
      exact ⟨c, hc, hflag⟩) hfirst ((mem_deadOf hg).2 ⟨b, hb, hordinary, hout⟩)
    obtain ⟨_, hswept⟩ := exists_swept (hg.entered _) hfirst
    obtain ⟨_, hswept'⟩ := exists_swept hswept.entered hrest
    rw [hswept'.shrinks id hlive] at hremoved
    exact absurd hremoved (by simp)
  · obtain ⟨removed, hswept⟩ := exists_swept (hg.entered _) hsweep
    exact ⟨removed, hswept.nodup, hswept.mem, hswept.names, hswept.reported⟩

/-- Of the two blocks behind the test one is dead, and so is the exit that it leads to: the
branch is a jump afterwards. -/
theorem eliminateDeadCode_spares_guarded :
    ∃ summary log w', searchFrom guarded {} {} = (.ok summary, log) ∧
      guarded.validate = .ok () ∧ summary.truncated = false ∧
      (eliminateDeadCode summary).runOn { graph := guarded, log } = (.ok ["dead", "exit"], w') ∧
      Needed guarded summary 2 ∧ ∃ b, w'.graph.block? 2 = some b ∧ b.terminator = .jump 3 := by
  have hrun : ∃ summary log w', searchFrom guarded {} {} = (.ok summary, log) ∧
      summary.truncated = false ∧
      (eliminateDeadCode summary).runOn { graph := guarded, log } = (.ok ["dead", "exit"], w') ∧
      w'.graph.contains 3 = true ∧ w'.graph.contains 4 = false :=
    ⟨_, _, _, by cbv, by cbv, Prod.ext (by cbv) rfl, by cbv, by cbv⟩
  obtain ⟨summary, log, w', hsearch, ht, hrun, hleft, hlost⟩ := hrun
  have hvalid : guarded.validate = .ok () := by cbv
  have hneeded : Needed guarded summary 2 := .jump (.first rfl) rfl rfl
  obtain ⟨b, b', hb, hb', -, -, hpruned⟩ :=
    (eliminateDeadCode_spares hvalid ht hrun).1 2 hneeded
  cases hb
  refine ⟨summary, log, w', hsearch, hvalid, ht, hrun, hneeded, b', hb', ?_⟩
  exact (pruned_branch_iff.1 hpruned).2.1 hleft hlost

end Symbolic
end FlowVerifier
