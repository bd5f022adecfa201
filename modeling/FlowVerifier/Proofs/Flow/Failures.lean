import FlowVerifier.Proofs.Flow.Creation
import FlowVerifier.Proofs.Flow.Removal
import FlowVerifier.Proofs.Flow.Writing

/-!
# Edits that fail

What an edit did before it failed stays done.  Most edits look at all they need before they
change anything, and so leave the graph alone where they fail; two do not.

* `Intact` says of an edit that the graph is the same if it fails.
* `Revision` lists the edits that can fail, and `Interrupted` is the situation in which one
  fails half-way: an edge or a waiting conditional jump leads to a block that was removed.
* `Awaited` graphs have no such conditional jump; all edits but removals keep them so, as
  `Retains` says.
* `failed_edit_cases` is the result, and `failed_edit_leftovers` shows both situations.
-/

namespace FlowVerifier
namespace FlowGraph

variable {α β : Type} {g g' : FlowGraph} {id i j : BlockId} {b gone : Block}

/-! ## Edits that leave the graph alone where they fail -/

/-- If the edit fails, the graph is the same. -/
def Intact (x : Edit α) (g : FlowGraph) : Prop :=
  ∀ e g', outcome x g = (.error e, g') → g' = g

namespace Intact

theorem of_ok {x : Edit α} {a : α} (h : outcome x g = (.ok a, g')) : Intact x g := by
  intro e r hrun
  rw [h] at hrun
  exact absurd (congrArg Prod.fst hrun) (by simp)

theorem of_error {x : Edit α} {e : Error} (h : outcome x g = (.error e, g)) : Intact x g := by
  intro e' r hrun
  rw [h] at hrun
  exact (congrArg Prod.snd hrun).symm

/-- The first part of the edit only looks at the graph. -/
theorem bind {x : Edit α} {f : α → Edit β} (hx : (outcome x g).2 = g)
    (hf : ∀ a, outcome x g = (.ok a, g) → Intact (f a) g) : Intact (x >>= f) g := by
  rcases hrun : outcome x g with ⟨r, g'⟩
  obtain rfl : g' = g := (congrArg Prod.snd hrun).symm.trans hx
  cases r with
  | error e => exact of_error (outcome_bind_error hrun)
  | ok a =>
      intro e r hfail
      rw [outcome_bind_ok hrun] at hfail
      exact hf a hrun e r hfail

theorem block {f : Block → Edit β} (hf : ∀ b, g.block? id = some b → Intact (f b) g) :
    Intact (Edit.block id >>= f) g := by
  cases hb : g.block? id with
  | none => exact of_error (outcome_bind_error (outcome_block_none hb))
  | some b =>
      refine bind (by rw [outcome_block hb]) fun c hc => ?_
      obtain rfl : b = c := by simpa [outcome_block hb] using hc
      exact hf b hb

theorem function {k : FunctionId} {f : FunctionInfo → Edit β} (hf : ∀ info, Intact (f info) g) :
    Intact (Edit.function k >>= f) g := by
  refine bind ?_ fun info _ => hf info
  rw [outcome_function]
  cases g.function? k <;> rfl

/-- A check that may stop an edit. -/
theorem check {c : Prop} [Decidable c] {e : Error} {x : PUnit → Edit α}
    (hx : ¬ c → Intact (x ⟨⟩) g) :
    Intact (if c then MonadExcept.throw e >>= x else x ⟨⟩) g := by
  split
  · have hstop : outcome (MonadExcept.throw e : Edit PUnit) g = (.error e, g) := rfl
    exact of_error (outcome_bind_error hstop)
  · rename_i hc
    exact hx hc

theorem modify (f : FlowGraph → FlowGraph) : Intact (modify f) g := of_ok (outcome_modify f g)

/-- The result of the edit does not matter. -/
theorem bind_pure {x : Edit α} (hx : Intact x g) (b : β) : Intact (do let _ ← x; pure b) g := by
  intro e g' hfail
  rw [outcome_bind] at hfail
  rcases hrun : outcome x g with ⟨r, g₁⟩
  rw [hrun] at hfail
  cases r with
  | error e' =>
      cases hfail
      exact hx e g' hrun
  | ok a => exact absurd (congrArg Prod.fst hfail) (by simp)

end Intact

theorem intact_setTerminator (g : FlowGraph) (id : BlockId) (t : Terminator) :
    Intact (setTerminator id t) g := by
  by_cases hok : g.contains id = true ∧ ∀ target ∈ t.normalize.targets, g.contains target = true
  · exact .of_ok (outcome_setTerminator hok.1 hok.2)
  · obtain ⟨label, hrun⟩ := outcome_setTerminator_error hok
    exact .of_error hrun

theorem intact_createNode (g : FlowGraph) (name : String) (overwrite isExit : Bool)
    (function : Option FunctionId) : Intact (createNode name overwrite isExit function) g := by
  rcases createNode_cases g name overwrite isExit function with
    ⟨e, hrun⟩ | ⟨id, b, -, -, hrun⟩ | ⟨-, hrun⟩
  · exact .of_error hrun
  · exact .of_ok hrun
  · exact .of_ok hrun

/-! ## Instructions -/

/-- Control instructions are refused at once, or give a terminator that leads to blocks that
exist. -/
theorem outcome_readSuffix (g : FlowGraph) (owner : Block) (rest : List Instruction) :
    (∃ e, outcome (readSuffix owner rest) g = (.error e, g)) ∨
      ∃ t g', outcome (readSuffix owner rest) g = (.ok t, g') ∧ Within g g' ∧
        ∀ target ∈ t.targets, g'.contains target = true := by
  unfold readSuffix
  cases parseSuffix rest with
  | error fault => exact .inl ⟨_, rfl⟩
  | ok suffix =>
      cases suffix with
      | none => exact .inr ⟨.finish, g, rfl, fun _ _ hb => hb, by simp [Terminator.targets]⟩
      | jump target =>
          obtain ⟨i, g', hplaced⟩ := exists_placed g target
          exact .inr ⟨.jump i, g', outcome_bind_ok hplaced.run, hplaced.within,
            by simpa [Terminator.targets] using hplaced.live⟩
      | branch test onTrue onFalse =>
          obtain ⟨i, g₁, hplaced₁⟩ := exists_placed g onTrue
          obtain ⟨j, g₂, hplaced₂⟩ := exists_placed g₁ onFalse
          have hi : g₂.contains i = true := hplaced₂.within.contains hplaced₁.live
          exact .inr ⟨.branch test i j, g₂,
            (outcome_bind_ok hplaced₁.run).trans (outcome_bind_ok hplaced₂.run),
            fun k c hc => hplaced₂.within k c (hplaced₁.within k c hc),
            by simp [Terminator.targets, hi, hplaced₂.live]⟩
      | ret value =>
          unfold resolveSuffix
          dsimp only
          by_cases hnone : owner.function.isNone = true
          · simp only [hnone, if_true]
            exact .inl ⟨_, rfl⟩
          · simp only [hnone, Bool.false_eq_true, if_false]
            exact .inr ⟨.ret value, g, rfl, fun _ _ hb => hb, by simp [Terminator.targets]⟩

theorem intact_setInstructions (g : FlowGraph) (id : BlockId) (l : List Instruction) :
    Intact (setInstructions id l) g := by
  cases hb : g.block? id with
  | none => exact .of_error (outcome_bind_error (outcome_block_none hb))
  | some b =>
      have hrun := outcome_setInstructions hb l
      rcases outcome_readSuffix g b (l.dropWhile (!·.isControl)) with
        ⟨e, hread⟩ | ⟨t, g', hread, hin, hlive⟩
      · exact .of_error (hrun.trans (outcome_bind_error hread))
      · have hset := outcome_setTerminator (t := t) (hin.contains (contains_iff.2 ⟨b, hb⟩))
          fun target htarget => hlive target (Terminator.mem_targets_normalize.1 htarget)
        rw [outcome_bind_ok hread, outcome_bind_ok hset] at hrun
        exact .of_ok hrun

/-- In the block a conditional jump waits that leads to a block that is gone. -/
def AwaitsRemoved (g : FlowGraph) (id : BlockId) : Prop :=
  ∃ b test target, g.block? id = some b ∧ b.closed = false ∧ b.pending = some (test, target) ∧
    g.contains target = false

theorem intact_pushJump (h : ¬ AwaitsRemoved g id) (name : String) :
    Intact (pushInstruction id (.jump name)) g := by
  cases hb : g.block? id with
  | none => exact .of_error (outcome_bind_error (outcome_block_none hb))
  | some b =>
      rw [← fill_self hb]
      cases hclosed : b.closed with
      | true => exact .of_error (outcome_pushInstruction_closed hb _)
      | false =>
          obtain ⟨j, g', hplaced⟩ := exists_placed g name
          refine .of_ok (outcome_pushInstruction_jump hb _ (fun test target hpending => ?_) hplaced)
          by_contra hgone
          exact h ⟨b, test, target, hb, hclosed, hpending, by simpa using hgone⟩

/-- Only a jump can be refused half-way. -/
theorem intact_pushInstruction (g : FlowGraph) (id : BlockId) {i : Instruction}
    (hi : ∀ name, i ≠ .jump name) : Intact (pushInstruction id i) g := by
  cases hb : g.block? id with
  | none => exact .of_error (outcome_bind_error (outcome_block_none hb))
  | some b =>
      rw [← fill_self hb]
      cases hclosed : b.closed with
      | true => exact .of_error (outcome_pushInstruction_closed hb i)
      | false =>
          cases hpending : b.pending with
          | some test =>
              obtain ⟨e, hrun⟩ := outcome_pushInstruction_waiting hb _ hi test
              exact .of_error hrun
          | none =>
              cases i with
              | jump name => exact absurd rfl (hi name)
              | jumpIf test name =>
                  obtain ⟨j, g', hplaced⟩ := exists_placed g name
                  exact .of_ok (outcome_pushInstruction_jumpIf hb _ test hplaced)
              | ret value =>
                  have hrun := outcome_pushInstruction_ret hb b.body value
                  split at hrun
                  · exact .of_error hrun
                  · exact .of_ok hrun
              | _ => exact .of_ok (outcome_pushInstruction_body hb rfl)

/-- **A jump behind a conditional jump to a block that is gone** fails, and the block no
longer waits. -/
theorem pushJump_forgets (h : AwaitsRemoved g id) {name : String} {e : Error}
    (hrun : outcome (pushInstruction id (.jump name)) g = (.error e, g')) :
    ∃ b', g'.block? id = some b' ∧ b'.pending = none := by
  obtain ⟨b, test, target, hb, hclosed, hpending, -⟩ := h
  obtain ⟨j, g₁, hplaced⟩ := exists_placed g name
  have hopen : (g₁.fill id b.body false b.pending).modifyBlock id
      (fun b => { b with pending := none }) = g₁.fill id b.body false none :=
    fill_modifyBlock fun _ => rfl
  have hb₁ := hplaced.within _ _ hb
  rw [← fill_self hb, hclosed] at hrun
  unfold pushInstruction at hrun
  rw [outcome_bind_ok (outcome_block (block?_fill hb))] at hrun
  simp only [Block.filled, Bool.false_eq_true, if_false] at hrun
  rw [outcome_bind_ok (hplaced.filled (contains_iff.2 ⟨b, hb⟩)), outcome_bind, outcome_modify]
    at hrun
  dsimp only at hrun
  rw [hopen] at hrun
  by_cases hlive : ∀ target ∈ (completed b.pending j).targets, g₁.contains target = true
  · have hok := hrun.symm.trans (outcome_setTerminator_closeBlock hb₁ b.body hlive)
    exact absurd (congrArg Prod.fst hok) (by simp)
  · have hbad : ¬ ((g₁.fill id b.body false none).contains id = true ∧
        ∀ target ∈ (completed b.pending j).normalize.targets,
          (g₁.fill id b.body false none).contains target = true) := by
      rintro ⟨-, hall⟩
      refine hlive fun target htarget => ?_
      have htarget' := hall target (Terminator.mem_targets_normalize.2 htarget)
      rwa [contains_fill] at htarget'
    obtain ⟨label, hset⟩ := outcome_setTerminator_error hbad
    obtain rfl : g₁.fill id b.body false none = g' :=
      congrArg Prod.snd ((outcome_bind_error hset).symm.trans hrun)
    exact ⟨_, block?_fill hb₁, rfl⟩

/-! ## Removals -/

/-- The block has an edge to a block that is gone. -/
def Dangles (g : FlowGraph) (id : BlockId) : Prop :=
  ∃ b target, g.bare? id = some b ∧ target ∈ b.terminator.targets ∧ g.contains target = false

theorem live_of_not_dangles (h : ¬ Dangles g id) (hb : g.bare? id = some b) :
    ∀ target ∈ b.terminator.targets, g.contains target = true := by
  intro target htarget
  by_contra hgone
  exact h ⟨b, target, hb, htarget, by simpa using hgone⟩

/-- A predecessor is led to blocks that it or the removed block led to. -/
theorem targets_severed {p : BlockId} {t : Terminator} {inherits : Bool}
    (h : severed id gone p b = some (t, inherits)) :
    t.targets ⊆ b.terminator.targets ∨ t.targets ⊆ gone.terminator.targets := by
  rcases severed_cases h with ⟨-, rfl, -, -, -⟩ | ⟨-, rfl, -, -⟩ | ⟨_, _, _, -, hb, rfl⟩
  · unfold heirTerminator
    split
    · exact .inl (List.nil_subset _)
    · exact .inr (List.Subset.refl _)
  · exact .inl (List.nil_subset _)
  · left
    rw [hb]
    split <;> simp [Terminator.targets]

/-- **All predecessors** lose their edges if these lead to blocks that exist. -/
theorem severEach_succeeds (id : BlockId) (gone : Block)
    (hgone : ∀ target ∈ gone.terminator.targets, g.contains target = true)
    {preds : List BlockId} (hpreds : ∀ p ∈ preds, ¬ Dangles g p) (heir : Option BlockId) :
    ∃ heir' g', outcome (preds.foldlM (severPredecessor id gone) heir) g = (.ok heir', g') := by
  induction preds generalizing g heir with
  | nil => exact ⟨heir, g, rfl⟩
  | cons p preds ih =>
      obtain ⟨hp, hpreds⟩ := List.forall_mem_cons.1 hpreds
      rw [List.foldlM_cons]
      rcases severPredecessor_cases id gone heir p g with
        ⟨-, hrun⟩ | ⟨b, t, inherits, hb, hs, hstep⟩
      · rw [outcome_bind_ok hrun]
        exact ih hgone hpreds heir
      · have hlive : ∀ j ∈ t.normalize.targets, g.contains j = true := by
          intro j hj
          rcases targets_severed hs with hsub | hsub
          · exact live_of_not_dangles hp hb j (hsub (Terminator.mem_targets_normalize.1 hj))
          · exact hgone j (hsub (Terminator.mem_targets_normalize.1 hj))
        rcases hstep with ⟨-, hrun⟩ | ⟨⟨j, hj, hdead⟩, -⟩
        · rw [outcome_bind_ok hrun]
          refine ih (fun j hj => (contains_withTerminator g p j _).trans (hgone j hj)) ?_ _
          rintro q hq ⟨b', j, hb', hj, hdead⟩
          rw [contains_withTerminator] at hdead
          rw [bare?_withTerminator] at hb'
          split at hb'
          · obtain ⟨c, -, rfl⟩ := Option.map_eq_some_iff.1 hb'
            rw [hlive j hj] at hdead
            exact absurd hdead (by simp)
          · exact hpreds q hq ⟨b', j, hb', hj, hdead⟩
        · rw [hlive j hj] at hdead
          exact absurd hdead (by simp)

/-- The removal meets an edge to a block that is gone. -/
def MeetsDangling (g : FlowGraph) (id : BlockId) : Prop :=
  ∃ gone, g.block? id = some gone ∧ (gone.isExit = true → (others id gone).length ≤ 1) ∧
    ∃ i, (i = id ∨ i ∈ others id gone) ∧ Dangles g i

theorem intact_removeNode (h : ¬ MeetsDangling g id) : Intact (removeNode id) g := by
  cases hb : g.block? id with
  | none => exact .of_error (outcome_removeNode_none hb)
  | some gone =>
      rcases removeNode_run hb with ⟨-, -, hrun⟩ | ⟨hexit, r, cut, hsever, hrun⟩
      · exact .of_error hrun
      -- the first step of the removal hides no edge and no block
      have hsame := sameButLists_detach g id
      have hdangles : ∀ i, i = id ∨ i ∈ others id gone → ¬ Dangles (g.detach id) i := by
        rintro i hi ⟨b, target, hb', htarget, hdead⟩
        rw [hsame.bare] at hb'
        rw [hsame.contains] at hdead
        exact h ⟨gone, hb, hexit, i, hi, b, target, hb', htarget, hdead⟩
      have hbare : (g.detach id).bare? id = some gone.bare := by
        rw [hsame.bare, bare?, hb]
        rfl
      have hgone : ∀ target ∈ gone.bare.terminator.targets,
          (g.detach id).contains target = true :=
        live_of_not_dangles (hdangles id (.inl rfl)) hbare
      obtain ⟨heir, g', hok⟩ := severEach_succeeds id gone hgone
        (fun p hp => hdangles p (.inr hp)) none
      obtain ⟨rfl, rfl⟩ := Prod.mk.inj (hsever.symm.trans hok)
      exact .of_ok hrun

/-! ## Conditional jumps that wait -/

/-- Every conditional jump that waits leads to a block that exists. -/
def Awaited (g : FlowGraph) : Prop :=
  ∀ id b test target, g.bare? id = some b → b.pending = some (test, target) →
    g.contains target = true

theorem Awaited.not_awaitsRemoved (h : Awaited g) (id : BlockId) : ¬ AwaitsRemoved g id := by
  rintro ⟨b, test, target, hb, -, hpending, hgone⟩
  rw [h id b.bare test target (bare?_of_block? hb) hpending] at hgone
  exact absurd hgone (by simp)

theorem Awaited.congr (h : Awaited g) (hbare : ∀ j, g'.bare? j = g.bare? j) : Awaited g' := by
  intro j b test target hb hpending
  rw [contains_eq_isSome_bare?, hbare, ← contains_eq_isSome_bare?]
  exact h j b test target (hbare j ▸ hb) hpending

theorem Awaited.modifyBlock (h : Awaited g) (id : BlockId) {f : Block → Block}
    (hf : ∀ b test target, (f b).pending = some (test, target) →
      b.pending = some (test, target) ∨ g.contains target = true) :
    Awaited (g.modifyBlock id f) := by
  intro j b' test target hb' hpending
  rw [contains_modifyBlock]
  rw [bare?_modifyBlock] at hb'
  split at hb'
  · obtain ⟨b, hb, rfl⟩ := Option.map_eq_some_iff.1 hb'
    rcases hf b test target hpending with hkept | hlive
    · exact h j b.bare test target (bare?_of_block? hb) hkept
    · exact hlive
  · exact h j b' test target hb' hpending

theorem Awaited.addBlock (h : Awaited g) {b : Block} (hb : b.pending = none) :
    Awaited (g.addBlock b) := by
  intro j b' test target hb' hpending
  rcases bare?_addBlock_cases hb' with rfl | hb'
  · exact absurd (hb.symm.trans hpending) (by simp)
  · obtain ⟨c, hc⟩ := contains_iff.1 (h j b' test target hb' hpending)
    refine contains_iff.2 ⟨c, ?_⟩
    rw [block?_addBlock, if_neg (Nat.ne_of_lt (lt_size_of_block? hc)), hc]

theorem Awaited.withTerminator (h : Awaited g) (id : BlockId) (t : Terminator) :
    Awaited (g.withTerminator id t) := by
  have hdetached := h.congr (sameButLists_detach g id).bare
  have hset := hdetached.modifyBlock id (f := fun b => { b with terminator := t })
    fun _ _ _ hpending => .inl hpending
  exact hset.congr (sameButLists_attach _ id).bare

/-- The edit keeps waiting conditional jumps leading to blocks that exist, also where it
fails. -/
def Retains (x : Edit α) : Prop := ∀ g, Awaited g → Awaited (outcome x g).2

namespace Retains

theorem pure (a : α) : Retains (pure a) := fun _ h => h

theorem throw (e : Error) : Retains (throw e : Edit α) := fun _ h => h

theorem modify {f : FlowGraph → FlowGraph} (hf : ∀ g, Awaited g → Awaited (f g)) :
    Retains (modify f) := hf

theorem bind {x : Edit α} {f : α → Edit β} (hx : Retains x) (hf : ∀ a, Retains (f a)) :
    Retains (x >>= f) := by
  intro g h
  have hg := hx g h
  rw [outcome_bind]
  rcases hrun : outcome x g with ⟨r, g'⟩
  rw [hrun] at hg
  cases r with
  | error e => exact hg
  | ok a => exact hf a g' hg

theorem block (id : BlockId) : Retains (Edit.block id) := by
  intro g h
  cases hb : g.block? id with
  | none => rwa [outcome_block_none hb]
  | some b => rwa [outcome_block hb]

theorem function (f : FunctionId) : Retains (Edit.function f) := by
  intro g h
  rw [outcome_function]
  cases g.function? f <;> exact h

theorem check {c : Prop} [Decidable c] {e : Error} {x : PUnit → Edit α} (hx : Retains (x ⟨⟩)) :
    Retains (if c then MonadExcept.throw e >>= x else x ⟨⟩) := by
  split
  · exact fun _ h => h
  · exact hx

end Retains

/-- An edit of a block that exists. -/
theorem retains_onBlock (id : BlockId) {f : FlowGraph → FlowGraph}
    (hf : ∀ g, Awaited g → Awaited (f g)) : Retains (do let _ ← Edit.block id; modify f) :=
  (Retains.block id).bind fun _ => .modify hf

theorem retains_setTerminator (id : BlockId) (t : Terminator) : Retains (setTerminator id t) := by
  intro g h
  by_cases hok : g.contains id = true ∧ ∀ target ∈ t.normalize.targets, g.contains target = true
  · rw [outcome_setTerminator hok.1 hok.2]
    exact h.withTerminator id t.normalize
  · obtain ⟨label, hrun⟩ := outcome_setTerminator_error hok
    rwa [hrun]

theorem retains_placeholder (name : String) : Retains (placeholder name) := by
  intro g h
  rw [outcome_placeholder]
  cases g.idOf? name with
  | some id => exact h
  | none => exact h.addBlock rfl

theorem retains_createNode (name : String) (overwrite isExit : Bool)
    (function : Option FunctionId) : Retains (createNode name overwrite isExit function) := by
  intro g h
  rcases createNode_cases g name overwrite isExit function with
    ⟨e, hrun⟩ | ⟨id, b, -, -, hrun⟩ | ⟨-, hrun⟩
  · rwa [hrun]
  · rw [hrun]
    have hadopted : Awaited (g.modifyBlock id (Block.adopted isExit function)) :=
      h.modifyBlock id fun _ _ _ hpending => .inl hpending
    exact hadopted.congr fun j => bare?_appoint _ id j isExit function
  · rw [hrun]
    have hadded : Awaited (g.addBlock { name, isExit, function }) := h.addBlock rfl
    exact hadded.congr fun j => bare?_appoint _ g.slots.size j isExit function

theorem retains_resolveSuffix (owner : Block) (suffix : Suffix) :
    Retains (resolveSuffix owner suffix) := by
  cases suffix with
  | none => exact .pure _
  | jump target => exact (retains_placeholder target).bind fun _ => .pure _
  | branch test onTrue onFalse =>
      refine (retains_placeholder onTrue).bind fun _ => ?_
      exact (retains_placeholder onFalse).bind fun _ => .pure _
  | ret value => exact .check (.pure _)

theorem retains_setInstructions (id : BlockId) (l : List Instruction) :
    Retains (setInstructions id l) := by
  refine (Retains.block id).bind fun owner => ?_
  dsimp only
  split
  · exact .throw _
  · refine (retains_resolveSuffix owner _).bind fun t => ?_
    refine (retains_setTerminator id t).bind fun _ => ?_
    exact .modify fun g h => h.modifyBlock id fun _ _ _ hpending => absurd hpending (by simp)

theorem retains_closeBlock (id : BlockId) : Retains (closeBlock id) :=
  retains_onBlock id fun _ h => h.modifyBlock id fun _ _ _ hpending => .inl hpending

/-- A conditional jump waits for a block that is found or created. -/
theorem retains_pushInstruction (id : BlockId) (i : Instruction) :
    Retains (pushInstruction id i) := by
  refine (Retains.block id).bind fun owner => .check ?_
  dsimp only
  split
  · rename_i test target
    refine .check fun g h => ?_
    obtain ⟨j, g', hplaced⟩ := exists_placed g target
    have hg' := retains_placeholder target g h
    rw [hplaced.run] at hg'
    rw [outcome_bind_ok hplaced.run]
    refine hg'.modifyBlock id fun b test' target' hpending => .inr ?_
    cases hpending
    exact hplaced.live
  · refine (retains_placeholder _).bind fun target => ?_
    refine Retains.bind (.modify fun g h => ?_) fun _ =>
      (retains_setTerminator id _).bind fun _ => retains_closeBlock id
    exact h.modifyBlock id fun _ _ _ hpending => absurd hpending (by simp)
  · exact .check (.check ((retains_setTerminator id _).bind fun _ => retains_closeBlock id))
  · exact .check (.modify fun g h => h.modifyBlock id fun _ _ _ hpending => .inl hpending)

/-- **All edits by which graphs are made** keep the waiting conditional jumps. -/
theorem retains_construction (c : Construction) : Retains c.edit := by
  cases c with
  | createNode name isExit function =>
      exact (retains_createNode name false isExit function).bind fun _ => .pure _
  | setInstructions id l => exact retains_setInstructions id l
  | pushInstruction id i => exact retains_pushInstruction id i
  | setTerminator id t => exact retains_setTerminator id t
  | setFirst id => exact retains_onBlock id fun _ h => h.congr fun _ => rfl
  | setLast id => exact retains_onBlock id fun _ h => h.congr fun _ => rfl
  | setLine id line =>
      exact retains_onBlock id fun _ h => h.modifyBlock id fun _ _ _ hpending => .inl hpending
  | addFunction name params returnType => exact fun g h => h.congr fun _ => rfl
  | setFunctionEntry f id =>
      exact (Retains.function f).bind fun _ => retains_onBlock id fun _ h => h.congr fun _ => rfl
  | registerCall f caller returnTo saved =>
      refine (Retains.function f).bind fun _ => (Retains.block caller).bind fun _ => ?_
      exact retains_onBlock returnTo fun g h => h.congr (bare?_editCalls g f _)

/-- **Graphs that are made without removals** keep them. -/
theorem Constructible.awaited (h : Constructible g) : Awaited g := by
  induction h with
  | empty =>
      intro id b test target hb
      exact absurd hb (by simp [bare?, block?, FlowGraph.empty])
  | step c _ _ ih => exact retains_construction c _ ih

end FlowGraph

/-! ## All edits -/

/-- An edit that may fail. -/
inductive Revision where
  /-- An edit by which graphs are made. -/
  | construct (c : Construction)
  /-- Creates a block, or takes over the one that has the name. -/
  | overwriteNode (name : String) (isExit : Bool) (function : Option FunctionId)
  /-- Removes a block. -/
  | removeNode (id : BlockId)

namespace Revision

open FlowGraph

/-- What the edit does. -/
def edit : Revision → Edit Unit
  | construct c => c.edit
  | overwriteNode name isExit function => do
    let _ ← FlowGraph.createNode name true isExit function
  | removeNode id => FlowGraph.removeNode id

/-- The edit fails half-way, if it fails: it pushes a jump behind a conditional jump to a
block that is gone, or removes a block next to an edge to a block that is gone. -/
def Interrupted (g : FlowGraph) : Revision → Prop
  | construct (.pushInstruction id (.jump _)) => AwaitsRemoved g id
  | removeNode id => MeetsDangling g id
  | _ => False

theorem intact_construct {g : FlowGraph} (c : Construction)
    (h : ¬ (construct c).Interrupted g) : Intact c.edit g := by
  cases c with
  | createNode name isExit function =>
      exact (intact_createNode g name false isExit function).bind_pure ()
  | setInstructions id l => exact intact_setInstructions g id l
  | pushInstruction id i =>
      by_cases hi : ∃ name, i = .jump name
      · obtain ⟨name, rfl⟩ := hi
        exact intact_pushJump h name
      · exact intact_pushInstruction g id fun name heq => hi ⟨name, heq⟩
  | setTerminator id t => exact intact_setTerminator g id t
  | setFirst id => exact .block fun _ _ => .modify _
  | setLast id => exact .block fun _ _ => .modify _
  | setLine id line => exact .block fun _ _ => .modify _
  | addFunction name params returnType => exact .of_ok rfl
  | setFunctionEntry f id => exact .function fun _ => .block fun _ _ => .modify _
  | registerCall f caller returnTo saved =>
      exact .function fun _ => .block fun _ _ => .block fun _ _ => .modify _

theorem intact {g : FlowGraph} (r : Revision) (h : ¬ r.Interrupted g) : Intact r.edit g := by
  cases r with
  | construct c => exact intact_construct c h
  | overwriteNode name isExit function =>
      exact (intact_createNode g name true isExit function).bind_pure ()
  | removeNode id => exact intact_removeNode h

/-- On a valid graph only waiting conditional jumps lead to blocks that are gone. -/
theorem awaitsRemoved_of_interrupted {g : FlowGraph} (h : WellFormed g) {r : Revision}
    (hr : r.Interrupted g) :
    ∃ id name, r = construct (.pushInstruction id (.jump name)) ∧ AwaitsRemoved g id := by
  unfold Interrupted at hr
  split at hr
  · rename_i id name
    exact ⟨id, name, rfl, hr⟩
  · obtain ⟨-, -, -, i, -, b, target, hb, htarget, hgone⟩ := hr
    rw [(h.target_live hb htarget).2] at hgone
    exact absurd hgone (by simp)
  · exact hr.elim

end Revision

namespace FlowGraph

/-- The graphs that come about by edits and removals, whether these succeed or fail. -/
inductive Revised : FlowGraph → Prop where
  | empty : Revised .empty
  | step {g : FlowGraph} (r : Revision) : Revised g → Revised (r.edit.runOn g).2

/-- **Edits that fail change nothing**, in any graph, but for the two situations in which one
is interrupted.  On a valid graph that is a jump pushed behind a conditional jump to a block
that is gone, and then something has changed.  On graphs that are made without removals no
edit is interrupted. -/
theorem failed_edit_cases {r : Revision} {g g' : FlowGraph} {e : Error}
    (hrun : r.edit.runOn g = (.error e, g')) :
    (g' = g ∨ r.Interrupted g) ∧
      (g.validate = .ok () → (g' = g ↔ ¬ r.Interrupted g)) ∧ (Constructible g → g' = g) := by
  have hintact : ¬ r.Interrupted g → g' = g := fun h => r.intact h e g' hrun
  refine ⟨?_, fun hvalid => ⟨fun hsame hinterrupted => ?_, hintact⟩, fun hmade => ?_⟩
  · by_cases h : r.Interrupted g
    · exact .inr h
    · exact .inl (hintact h)
  · obtain ⟨id, name, rfl, hawaits⟩ :=
      Revision.awaitsRemoved_of_interrupted (validate_iff.1 hvalid) hinterrupted
    obtain ⟨b', hb', hforgot⟩ := pushJump_forgets hawaits hrun
    obtain ⟨b, test, target, hb, -, hpending, -⟩ := hawaits
    obtain rfl : b = b' := Option.some.inj (hb.symm.trans (hsame ▸ hb'))
    exact absurd (hforgot.symm.trans hpending) (by simp)
  · refine hintact fun hinterrupted => ?_
    obtain ⟨id, -, -, hawaits⟩ :=
      Revision.awaitsRemoved_of_interrupted hmade.consistent.wellFormed hinterrupted
    exact hmade.awaited.not_awaitsRemoved id hawaits

/-- The graph that edits make, one after the other. -/
def revised (rs : List Revision) : FlowGraph := rs.foldl (fun g r => (r.edit.runOn g).2) .empty

theorem revised_revised (rs : List Revision) : Revised (revised rs) := by
  have hfold : ∀ g, Revised g → Revised (rs.foldl (fun g r => (r.edit.runOn g).2) g) := by
    induction rs with
    | nil => exact fun g hg => hg
    | cons r rs ih => exact fun g hg => ih _ (hg.step r)
  exact hfold _ .empty

/-- A block that branches to two blocks that are not defined yet. -/
def branching : FlowGraph := revised [
  .construct (.createNode "a" false none),
  .construct (.setInstructions 0 [.jumpIf ⟨.var "x", .lt, .var "y"⟩ "below", .jump "above"])]

/-- A jump to a block that does not exist is refused, and the block still branches. -/
theorem failed_edit_cases_branching :
    Constructible branching ∧
      ((setTerminator 0 (.jump 3)).runOn branching).1 = .error (.unknownNode "n3") ∧
      ((setTerminator 0 (.jump 3)).runOn branching).2 = branching ∧
      branching.successors 0 = [1, 2] := by
  have hblock := Constructible.empty.step (.createNode "a" false none) trivial
  have hmade : Constructible branching := hblock.step (.setInstructions 0 _) trivial
  have hrun : (Revision.construct (.setTerminator 0 (.jump 3))).edit.runOn branching =
      (.error (.unknownNode "n3"), ((setTerminator 0 (.jump 3)).runOn branching).2) :=
    Prod.ext (by cbv) rfl
  exact ⟨hmade, congrArg Prod.fst hrun, (failed_edit_cases hrun).2.2 hmade, by cbv⟩

/-- A conditional jump waits that leads to a block that was removed. -/
def stale : FlowGraph := revised [
  .construct (.createNode "a" false none),
  .construct (.pushInstruction 0 (.jumpIf ⟨.var "x", .lt, .var "y"⟩ "below")),
  .removeNode 1]

/-- The exit was removed although it led to itself, and its heir leads to it. -/
def frayed : FlowGraph := revised [
  .construct (.addFunction "f" [] none),
  .construct (.createNode "enter" false (some 0)),
  .construct (.createNode "leave" true (some 0)),
  .construct (.createNode "rest" false (some 0)),
  .construct (.createNode "end" false (some 0)),
  .construct (.setTerminator 0 (.jump 1)),
  .construct (.setTerminator 1 (.branch ⟨.var "x", .lt, .var "y"⟩ 1 2)),
  .construct (.setTerminator 2 (.jump 3)),
  .removeNode 1]

/-- **Edits that fail half-way.**  A jump is refused, but the block it names was created and
the block it closes no longer waits; the graph was valid.  A removal is refused, but the
block is no longer in the list of its successor. -/
theorem failed_edit_leftovers :
    (Revised stale ∧ stale.validate = .ok () ∧ stale.idOf? "above" = none ∧
      ((pushInstruction 0 (.jump "above")).runOn stale).1 = .error (.unknownNode "n1") ∧
      ((pushInstruction 0 (.jump "above")).runOn stale).2.idOf? "above" = some 2 ∧
      (((pushInstruction 0 (.jump "above")).runOn stale).2.block? 0).any (·.pending.isNone) =
        true) ∧
    Revised frayed ∧ frayed.predecessors 3 = [2] ∧
      ((removeNode 2).runOn frayed).1 = .error (.unknownNode "n1") ∧
      ((removeNode 2).runOn frayed).2.contains 2 = true ∧
      ((removeNode 2).runOn frayed).2.predecessors 3 = [] :=
  ⟨⟨revised_revised _, by cbv, by cbv, by cbv, by cbv, by cbv⟩, revised_revised _, by cbv, by cbv,
    by cbv, by cbv⟩

end FlowGraph
end FlowVerifier
