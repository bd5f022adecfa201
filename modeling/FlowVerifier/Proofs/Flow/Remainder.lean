import FlowVerifier.Proofs.Flow.Removal
import FlowVerifier.Proofs.Invariants

/-!
# What a removal leaves alone

A removal can break a graph, and other removals may follow.  What it does to the blocks that
stay can be said in any graph, as long as the lists are right for the blocks that do not
return.

* `Entered` is this invariant: a block that does not return is in the lists of exactly the
  blocks that its terminator names.  Removals keep it, also those that break a graph.
* `Trimmed` says what the cuts make of one terminator.
* `removeNode_remainder`: the block is gone; the others keep their names, bodies and lines,
  and their terminators if these do not name the block; a branch to it is a jump to its
  other side.
-/

namespace FlowVerifier
namespace FlowGraph

variable {g g' : FlowGraph} {id i j p : BlockId} {gone b : Block} {P Q : BlockId → Prop}

/-! ## Blocks that do not return -/

/-- Blocks in `P` that do not return are in the lists of exactly the blocks that they lead
to. -/
def Entered (P : BlockId → Prop) (g : FlowGraph) : Prop :=
  ∀ i b, P i → g.bare? i = some b → b.terminator.isReturn = false →
    ∀ j, g.contains j = true → (i ∈ g.predecessors j ↔ j ∈ b.terminator.targets)

theorem WellFormed.entered (h : WellFormed g) (P : BlockId → Prop) : Entered P g := by
  intro i b _ hb hplain j _
  rw [h.edges i j, mem_successors]
  simp [hb, hplain]

theorem Entered.imp (h : Entered P g) (hPQ : ∀ i, Q i → P i) : Entered Q g :=
  fun i b hi => h i b (hPQ i hi)

/-- A change that keeps the terminators, and the lists but for blocks that return. -/
theorem Entered.transport (h : Entered P g)
    (hbare : ∀ i, (g'.bare? i).map Block.terminator = (g.bare? i).map Block.terminator)
    (hlists : ∀ i b j, P i → g.bare? i = some b → b.terminator.isReturn = false →
      (i ∈ g'.predecessors j ↔ i ∈ g.predecessors j)) : Entered P g' := by
  intro i b' hi hb' hplain j hj
  have hterm := hbare i
  rw [hb'] at hterm
  obtain ⟨b, hb, hsame⟩ := Option.map_eq_some_iff.1 hterm.symm
  have hlive : g.contains j = true := by
    have hsome := congrArg Option.isSome (hbare j)
    rw [Option.isSome_map, Option.isSome_map, ← contains_eq_isSome_bare?,
      ← contains_eq_isSome_bare?] at hsome
    exact hsome ▸ hj
  rw [← hsame] at hplain ⊢
  rw [hlists i b j hi hb hplain]
  exact h i b hi hb hplain j hlive

theorem mem_predecessors_detach (hi : i ≠ id) (g : FlowGraph) (j : BlockId) :
    i ∈ (g.detach id).predecessors j ↔ i ∈ g.predecessors j := by
  unfold detach
  rw [mem_predecessors_foldl_erase]
  exact ⟨fun h => h.1, fun h => ⟨h, fun heq => hi heq.1⟩⟩

theorem mem_predecessors_attach (hi : i ≠ id) (g : FlowGraph) (j : BlockId) :
    i ∈ (g.attach id).predecessors j ↔ i ∈ g.predecessors j := by
  unfold attach
  rw [mem_predecessors_foldl_add]
  exact ⟨fun h => h.resolve_right fun heq => hi heq.1, .inl⟩

theorem Entered.detach (h : Entered P g) (id : BlockId) (hP : ∀ i, Q i → P i ∧ i ≠ id) :
    Entered Q (g.detach id) :=
  (h.imp fun i hi => (hP i hi).1).transport (fun i => by rw [(sameButLists_detach g id).bare])
    fun i _ j hi _ _ => mem_predecessors_detach (hP i hi).2 g j

/-- Another terminator of a block that does not return. -/
theorem Entered.withTerminator (h : Entered P g) (hp : P p) (hb : g.bare? p = some b)
    (hplain : b.terminator.isReturn = false) (t : Terminator) :
    Entered P (g.withTerminator p t) := by
  have hmodify : ∀ i j, i ∈ ((g.detach p).modifyBlock p fun b => { b with terminator := t
      }).predecessors j ↔ i ∈ (g.detach p).predecessors j := by
    intro i j
    rw [predecessors_modifyBlock (f := fun b => { b with terminator := t }) fun _ => rfl]
  intro i b' hi hb' hplain' j hj
  rw [contains_withTerminator] at hj
  rw [bare?_withTerminator] at hb'
  by_cases heq : p = i
  · subst heq
    rw [if_pos rfl, hb, Option.map_some, Option.some.injEq] at hb'
    subst hb'
    -- the block was taken out of the lists it was in, and entered in the new ones
    have hold : p ∉ (g.detach p).predecessors j := by
      unfold FlowGraph.detach
      rw [mem_predecessors_foldl_erase, h p b hp hb hplain j hj]
      rintro ⟨hmem, hno⟩
      exact hno ⟨rfl, mem_successors.2 ⟨b, hb, by simpa [hplain] using hmem⟩⟩
    have hsucc : j ∈ ((g.detach p).modifyBlock p fun b => { b with terminator := t
        }).successors p ↔ j ∈ t.targets := by
      have hmid : ((g.detach p).modifyBlock p fun b => { b with terminator := t }).bare? p =
          some { b with terminator := t } := by
        rw [← (sameButLists_attach _ p).bare, ← FlowGraph.withTerminator, bare?_withTerminator,
          if_pos rfl, hb]
        rfl
      rw [mem_successors, hmid]
      have hplain'' : t.isReturn = false := hplain'
      simp [hplain'']
    have hcontains : ((g.detach p).modifyBlock p fun b => { b with terminator := t
        }).contains j = true := by
      rw [← (sameButLists_attach _ p).contains, ← FlowGraph.withTerminator,
        contains_withTerminator, hj]
    unfold FlowGraph.withTerminator FlowGraph.attach
    rw [mem_predecessors_foldl_add, hmodify, hsucc, hcontains]
    simp [hold]
  · rw [if_neg heq] at hb'
    unfold FlowGraph.withTerminator
    rw [mem_predecessors_attach (Ne.symm heq), hmodify, mem_predecessors_detach (Ne.symm heq)]
    exact h i b' hi hb' hplain' j hj

/-- Edits for some blocks, one after the other, that move no other block. -/
theorem mem_predecessors_foldl {edit : FlowGraph → BlockId → FlowGraph}
    (hedit : ∀ {i id}, i ≠ id → ∀ g j, i ∈ (edit g id).predecessors j ↔ i ∈ g.predecessors j)
    {l : List BlockId} (hi : i ∉ l) (g : FlowGraph) (j : BlockId) :
    i ∈ (l.foldl edit g).predecessors j ↔ i ∈ g.predecessors j := by
  induction l generalizing g with
  | nil => rfl
  | cons id l ih =>
      rw [List.mem_cons, not_or] at hi
      rw [List.foldl_cons, ih hi.2, hedit hi.1]

/-- Another record of calls moves only blocks that return. -/
theorem Entered.editCalls (h : Entered P g) (f : FunctionId) (change : List Call → List Call) :
    Entered P (g.editCalls f change) := by
  refine h.transport (fun i => by rw [bare?_editCalls]) fun i b j _ hb hplain => ?_
  have hi : i ∉ g.returningBlocks f := by
    rw [mem_returningBlocks_bare]
    rintro ⟨b', hb', -, hret⟩
    obtain rfl : b = b' := Option.some.inj (hb.symm.trans hb')
    rw [hplain] at hret
    exact absurd hret (by simp)
  unfold FlowGraph.editCalls
  dsimp only
  rw [mem_predecessors_foldl mem_predecessors_attach hi]
  exact mem_predecessors_foldl mem_predecessors_detach hi g j

theorem Entered.forgetIn (h : Entered P g) (id : BlockId) (heir : Option BlockId)
    (f : FunctionId) : Entered P (forgetIn id heir g f) := by
  unfold FlowGraph.forgetIn
  dsimp only
  split
  · exact (h.editCalls f _).transport (fun _ => rfl) fun _ _ _ _ _ _ => Iff.rfl
  · exact h.transport (fun _ => rfl) fun _ _ _ _ _ _ => Iff.rfl

theorem Entered.withHeir (h : Entered P g) (function : Option FunctionId) (heir : BlockId)
    (returning : Bool) : Entered P (g.withHeir function heir returning) := by
  have hblock : Entered P (g.modifyBlock heir fun b => { b with isExit := returning }) := by
    refine h.transport (fun i => ?_) fun i _ j _ _ _ => ?_
    · rw [bare?_modifyBlock]
      split
      · unfold bare?
        cases g.block? i <;> rfl
      · rfl
    · rw [predecessors_modifyBlock (f := fun b => { b with isExit := returning }) fun _ => rfl]
  unfold FlowGraph.withHeir
  dsimp only
  split
  · exact hblock.transport (fun _ => rfl) fun _ _ _ _ _ _ => Iff.rfl
  · exact hblock

/-- A block that is dropped is in no list that counts. -/
theorem Entered.dropBlock (h : Entered (· ≠ id) g) : Entered (fun _ => True) (g.dropBlock id) := by
  intro i b _ hb hplain j hj
  rw [bare?_dropBlock] at hb
  have hne : id ≠ j := by
    rintro rfl
    rw [contains_eq_isSome_bare?, bare?_dropBlock, if_pos rfl] at hj
    exact absurd hj (by simp)
  have hlive : g.contains j = true := by
    rwa [contains_eq_isSome_bare?, bare?_dropBlock, if_neg hne, ← contains_eq_isSome_bare?] at hj
  have hlist : (g.dropBlock id).predecessors j = g.predecessors j := by
    unfold predecessors
    rw [block?_dropBlock, if_neg hne]
  split at hb
  · exact absurd hb (by simp)
  · rename_i hi
    rw [hlist]
    exact h i b (Ne.symm hi) hb hplain j hlive

/-- The steps of a removal after the edges were cut. -/
theorem Entered.removed (h : Entered (· ≠ id) g) (gone : Block) (heir : Option BlockId) :
    Entered (fun _ => True) (removed id gone heir g) := by
  have hforget : ∀ (fs : List FunctionId) {g : FlowGraph}, Entered (· ≠ id) g →
      Entered (· ≠ id) (fs.foldl (FlowGraph.forgetIn id heir) g) := by
    intro fs
    induction fs with
    | nil => exact fun h => h
    | cons f fs ih => exact fun h => ih (h.forgetIn id heir f)
  have hhanded : Entered (· ≠ id) (handOn gone
      ((List.range g.functions.size).foldl (FlowGraph.forgetIn id heir) g) heir) := by
    cases heir with
    | none => exact hforget _ h
    | some q => exact (hforget _ h).withHeir gone.function q _
  have hends : Entered (· ≠ id) ((handOn gone
      ((List.range g.functions.size).foldl (FlowGraph.forgetIn id heir) g) heir).withEnds id
        (others id gone)) :=
    hhanded.transport (fun _ => rfl) fun _ _ _ _ _ _ => Iff.rfl
  exact hends.dropBlock

/-! ## Cutting edges -/

/-- The cuts at the blocks `preds` leave a block the terminator `t`. -/
structure Trimmed (id : BlockId) (gone : Block) (preds : List BlockId) (j : BlockId) (b : Block)
    (t : Terminator) : Prop where
  unlisted : j ∉ preds → t = b.terminator
  unaffected : severed id gone j b = none → t = b.terminator
  branch : ∀ test onTrue onFalse, b.terminator = .branch test onTrue onFalse → j ∈ preds →
    (onTrue = id → onFalse ≠ id → t = .jump onFalse) ∧
      (onTrue ≠ id → onFalse = id → t = .jump onTrue)

theorem plain_of_severed {t : Terminator} {inherits : Bool}
    (h : severed id gone p b = some (t, inherits)) : b.terminator.isReturn = false := by
  rcases severed_cases h with ⟨-, -, -, ht, -⟩ | ⟨-, -, ht, -⟩ | ⟨_, _, _, -, ht, -⟩ <;>
    rw [ht] <;> rfl

/-- The block is not cut at the predecessor `p`. -/
theorem Trimmed.skip {t : Terminator} {preds : List BlockId} (h : Trimmed id gone preds j b t)
    (hp : j = p → severed id gone p b = none) : Trimmed id gone (p :: preds) j b t := by
  refine ⟨fun hout => h.unlisted fun hmem => hout (List.mem_cons_of_mem _ hmem), h.unaffected,
    fun test onTrue onFalse hbranch hmem => ?_⟩
  rcases List.mem_cons.1 hmem with hj | hmem
  · -- a branch is always cut
    have hnone := hp hj
    simp [severed, hbranch] at hnone
  · exact h.branch test onTrue onFalse hbranch hmem

/-- A terminator that was cut at one predecessor is not cut there again. -/
theorem Trimmed.cons {t t' : Terminator} {inherits : Bool} {preds : List BlockId}
    (hs : severed id gone p b = some (t, inherits))
    (h : Trimmed id gone preds p { b with terminator := t.normalize } t') :
    Trimmed id gone (p :: preds) p b t' := by
  refine ⟨fun hout => absurd (List.mem_cons_self ..) hout, fun hnone => ?_, ?_⟩
  · rw [hs] at hnone
    exact absurd hnone (by simp)
  · intro test onTrue onFalse hb _
    have ht : t = .jump (if onTrue = id then onFalse else onTrue) := by
      simp only [severed, hb, Option.some.injEq, Prod.mk.injEq] at hs
      exact hs.1.symm
    have hkept : ∀ target, target ≠ id → t = .jump target → t' = .jump target := by
      rintro target hne rfl
      refine h.unaffected ?_
      simp [severed, Terminator.normalize, hne]
    refine ⟨fun hleft hright => hkept onFalse hright ?_, fun hleft hright => hkept onTrue hleft ?_⟩
    · rw [ht, if_pos hleft]
    · rw [ht, if_neg hleft]

/-- A cut leaves every block in place. -/
theorem keeps_contains_severPredecessor (id : BlockId) (gone : Block) (heir : Option BlockId)
    (p j : BlockId) : Keeps (·.contains j) (severPredecessor id gone heir p) := by
  intro g
  rcases severPredecessor_cases id gone heir p g with
    ⟨-, hrun⟩ | ⟨b, t, inherits, -, -, ⟨-, hrun⟩ | ⟨-, label, hrun⟩⟩ <;> rw [hrun]
  exact contains_withTerminator g p j _

/-- So do all cuts. -/
theorem keeps_contains_severEach (id : BlockId) (gone : Block) (heir : Option BlockId)
    (preds : List BlockId) (j : BlockId) :
    Keeps (·.contains j) (preds.foldlM (severPredecessor id gone) heir) :=
  .foldlM fun heir p => keeps_contains_severPredecessor id gone heir p j

/-- **All predecessors**, in any graph in which the cuts succeed. -/
theorem severEach_trimmed {preds : List BlockId} (hpreds : ∀ p ∈ preds, p ≠ id)
    {heir heir' : Option BlockId} (h : Entered (· ≠ id) g)
    (hrun : outcome (preds.foldlM (severPredecessor id gone) heir) g = (.ok heir', g')) :
    Entered (· ≠ id) g' ∧
      ∀ j b, g.bare? j = some b →
        ∃ t, g'.bare? j = some { b with terminator := t } ∧ Trimmed id gone preds j b t := by
  induction preds generalizing g heir with
  | nil =>
      obtain rfl : g = g' := congrArg Prod.snd hrun
      exact ⟨h, fun j b hb => ⟨b.terminator, hb, fun _ => rfl, fun _ => rfl,
        fun _ _ _ _ hmem => absurd hmem (by simp)⟩⟩
  | cons p preds ih =>
      obtain ⟨hp, hpreds⟩ := List.forall_mem_cons.1 hpreds
      rw [List.foldlM_cons] at hrun
      rcases severPredecessor_cases id gone heir p g with
        ⟨hnone, hstep⟩ | ⟨c, t, inherits, hc, hs, ⟨-, hstep⟩ | ⟨-, label, hstep⟩⟩
      · rw [outcome_bind_ok hstep] at hrun
        obtain ⟨hentered, hblocks⟩ := ih hpreds h hrun
        refine ⟨hentered, fun j b hb => ?_⟩
        obtain ⟨t, hb', htrimmed⟩ := hblocks j b hb
        refine ⟨t, hb', htrimmed.skip ?_⟩
        rintro rfl
        rwa [hb, Option.bind_some] at hnone
      · rw [outcome_bind_ok hstep] at hrun
        obtain ⟨hentered, hblocks⟩ :=
          ih hpreds (h.withTerminator hp hc (plain_of_severed hs) t.normalize) hrun
        refine ⟨hentered, fun j b hb => ?_⟩
        by_cases heq : p = j
        · subst heq
          obtain rfl : c = b := Option.some.inj (hc.symm.trans hb)
          obtain ⟨t', hb', htrimmed⟩ := hblocks p { c with terminator := t.normalize } (by
            rw [bare?_withTerminator, if_pos rfl, hc]
            rfl)
          exact ⟨t', hb', htrimmed.cons hs⟩
        · obtain ⟨t', hb', htrimmed⟩ := hblocks j b (by rw [bare?_withTerminator, if_neg heq, hb])
          exact ⟨t', hb', htrimmed.skip fun hj => absurd hj.symm heq⟩
      · rw [outcome_bind_error hstep] at hrun
        exact absurd (congrArg Prod.fst hrun) (by simp)

/-! ## The whole removal -/

/-- What the removal of a block leaves of another one. -/
structure Remainder (id : BlockId) (gone b b' : Block) : Prop where
  name : b'.name = b.name
  body : b'.body = b.body
  line : b'.line = b.line
  isExit : gone.isExit = false → b'.isExit = b.isExit
  unlinked : id ∉ b.terminator.targets → b'.terminator = b.terminator
  branch : ∀ test onTrue onFalse, b.terminator = .branch test onTrue onFalse →
    (onTrue = id → onFalse ≠ id → b'.terminator = .jump onFalse) ∧
      (onTrue ≠ id → onFalse = id → b'.terminator = .jump onTrue)

theorem bare?_removed (gone : Block) (heir : Option BlockId) (cut : FlowGraph) (j : BlockId) :
    (removed id gone heir cut).bare? j = if id = j then none else
      (cut.bare? j).map fun b =>
        if heir = some j then { b with isExit := (heirTerminator gone j).isReturn } else b := by
  unfold removed
  rw [bare?_dropBlock]
  split
  · rfl
  · have hhanded := bare?_handOn gone
      ((List.range cut.functions.size).foldl (FlowGraph.forgetIn id heir) cut) heir j
    rw [(foldl_forgetIn id heir cut).1] at hhanded
    exact hhanded

/-- The removal of a block leaves every other block in place, also where it fails. -/
theorem keeps_contains_removeNode {j : BlockId} (hj : j ≠ id) :
    Keeps (·.contains j) (removeNode id) := by
  intro g
  cases hb : g.block? id with
  | none => rw [outcome_removeNode_none hb]
  | some gone =>
      rcases removeNode_run hb with ⟨-, -, hrun⟩ | ⟨-, r, cut, hsever, hrun⟩
      · rw [hrun]
      · have hcut : cut.contains j = g.contains j := by
          have hkeeps := keeps_contains_severEach id gone none (others id gone) j (g.detach id)
          rw [hsever] at hkeeps
          exact hkeeps.trans ((sameButLists_detach g id).contains j)
        rw [hrun]
        cases r with
        | error e => exact hcut
        | ok heir =>
            dsimp only
            rw [contains_eq_isSome_bare?, bare?_removed, if_neg (Ne.symm hj), Option.isSome_map,
              ← contains_eq_isSome_bare?, hcut]

/-- A block that does not return is a predecessor of exactly the blocks it leads to. -/
theorem Entered.mem_others (h : Entered (fun _ => True) g) (hb : g.block? id = some gone)
    (hj : j ≠ id) (hbare : g.bare? j = some b) (hplain : b.terminator.isReturn = false) :
    j ∈ others id gone ↔ id ∈ b.terminator.targets := by
  rw [← h j b trivial hbare hplain id (contains_iff.2 ⟨gone, hb⟩), mem_predecessors_iff, hb, others,
    List.mem_filter, bne_iff_ne]
  simp [hj]

/-- What the cuts leave of a block, if the rest of the removal leaves its terminator. -/
theorem Trimmed.remainder {b' : Block} {t : Terminator}
    (htrimmed : Trimmed id gone (others id gone) j b t) (h : Entered (fun _ => True) g)
    (hb : g.block? id = some gone) (hj : j ≠ id) (hbare : g.bare? j = some b)
    (hname : b'.name = b.name) (hbody : b'.body = b.body) (hline : b'.line = b.line)
    (hterm : b'.terminator = t) (hexit : gone.isExit = false → b'.isExit = b.isExit) :
    Remainder id gone b b' := by
  subst hterm
  refine ⟨hname, hbody, hline, hexit, fun hout => ?_, fun test onTrue onFalse hbranch => ?_⟩
  · cases hret : b.terminator.isReturn with
    | false =>
        refine htrimmed.unlisted fun hmem => hout ?_
        exact (h.mem_others hb hj hbare hret).1 hmem
    | true =>
        refine htrimmed.unaffected ?_
        cases hs : severed id gone j b with
        | none => rfl
        | some r =>
            rw [plain_of_severed hs] at hret
            exact absurd hret (by simp)
  · have hplain : b.terminator.isReturn = false := by rw [hbranch]; rfl
    have hcut : onTrue = id ∨ onFalse = id → j ∈ others id gone := by
      intro hside
      rw [h.mem_others hb hj hbare hplain, hbranch]
      rcases hside with rfl | rfl <;> simp [Terminator.targets]
    exact ⟨fun hleft => (htrimmed.branch test onTrue onFalse hbranch (hcut (.inl hleft))).1 hleft,
      fun hleft hright =>
        (htrimmed.branch test onTrue onFalse hbranch (hcut (.inr hright))).2 hleft hright⟩

/-- **A removal that succeeds**, in any graph in which the blocks that do not return are in
the right lists.  The block is gone, and `Remainder` says what the others keep. -/
theorem removeNode_remainder (h : Entered (fun _ => True) g) (hb : g.block? id = some gone)
    (hrun : outcome (removeNode id) g = (.ok (), g')) :
    Entered (fun _ => True) g' ∧ g'.contains id = false ∧
      (∀ j, j ≠ id → g'.contains j = g.contains j) ∧
      ∀ j b', g'.bare? j = some b' → ∃ b, g.bare? j = some b ∧ Remainder id gone b b' := by
  have hothers : ∀ j, j ≠ id → g'.contains j = g.contains j := fun j hj => by
    have hkeeps := keeps_contains_removeNode hj g
    rwa [hrun] at hkeeps
  rcases removeNode_run hb with ⟨-, -, hfail⟩ | ⟨hexit, r, cut, hsever, hok⟩
  · rw [hfail] at hrun
    exact absurd (congrArg Prod.fst hrun) (by simp)
  rw [hok] at hrun
  cases r with
  | error e => exact absurd (congrArg Prod.fst hrun) (by simp)
  | ok heir =>
      obtain rfl : removed id gone heir cut = g' := congrArg Prod.snd hrun
      have hsame := sameButLists_detach g id
      have hpreds : ∀ p ∈ others id gone, p ≠ id := by
        intro p hp
        simpa using (List.mem_filter.1 hp).2
      obtain ⟨hentered, hblocks⟩ :=
        severEach_trimmed hpreds (h.detach id fun i hi => ⟨trivial, hi⟩) hsever
      refine ⟨hentered.removed gone heir, ?_, hothers, fun j b' hbare' => ?_⟩
      · rw [contains_eq_isSome_bare?, bare?_removed, if_pos rfl]
        rfl
      · have hlive := contains_eq_isSome_bare? (removed id gone heir cut) j
        rw [bare?_removed] at hbare' hlive
        split at hbare'
        · exact absurd hbare' (by simp)
        rename_i hj
        obtain ⟨b, hbare⟩ : ∃ b, g.bare? j = some b := by
          rw [if_neg hj, hbare', Option.isSome_some, hothers j (Ne.symm hj),
            contains_eq_isSome_bare?] at hlive
          exact Option.isSome_iff_exists.1 hlive
        obtain ⟨t, hcut, htrimmed⟩ := hblocks j b ((hsame.bare j).trans hbare)
        rw [hcut, Option.map_some, Option.some.injEq] at hbare'
        refine ⟨b, hbare, htrimmed.remainder h hb (Ne.symm hj) hbare ?_ ?_ ?_ ?_ fun hnoExit => ?_⟩
        case refine_5 =>
          have hnone := (severEach_heir hexit hsever).1 hnoExit
          subst hbare' hnone
          rfl
        all_goals
          subst hbare'
          split <;> rfl

end FlowGraph
end FlowVerifier
