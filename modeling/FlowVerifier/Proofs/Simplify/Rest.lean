import FlowVerifier.Proofs.Flow.Predecessors
import FlowVerifier.Proofs.Simplify.EmptyBlocks
import FlowVerifier.Proofs.Simplify.Fusion
import FlowVerifier.Proofs.Simplify.Uses
import FlowVerifier.Simplify.Worklist
import Mathlib.Data.List.Perm.Basic

/-!
# Where a pass rests

A pass *rests* at a block (`Pass.AtRest`) if there is nothing for it to do there: no
constant to put in and no unused variable to drop, no detour to take out, no predecessor
to append the block to.  Then it reports no block and leaves the graph alone; otherwise it
makes `Progress` and says where (`outcome_apply`).
-/

namespace FlowVerifier
namespace Simplify

open FlowGraph

variable {g g' : FlowGraph} {w w' : Workspace} {id into gone old new : BlockId}
  {b tail : Block} {x : String} {removeUnused : Bool}

/-- A list without repetitions that holds one element only. -/
theorem eq_singleton_of_nodup {α : Type} {l : List α} {a : α} (hl : l.Nodup)
    (h : ∀ c, c ∈ l ↔ c = a) : l = [a] := by
  refine List.perm_singleton.1 ((List.perm_ext_iff_of_nodup hl (List.nodup_singleton a)).2 ?_)
  simpa using h

/-! ## Unused variables -/

theorem nodup_ids (g : FlowGraph) : g.ids.Nodup := by
  have hids : g.ids = (List.range g.slots.size).filter g.contains := by
    unfold ids blocks
    rw [List.map_filterMap, ← List.filterMap_eq_filter]
    refine List.filterMap_congr fun id _ => ?_
    cases h : g.block? id <;> simp [contains, h, Option.guard]
  rw [hids]
  exact List.nodup_range.filter _

theorem mem_writersOf {j : BlockId} :
    j ∈ g.writersOf x ↔ ∃ c, g.bare? j = some c ∧ Defines c.body x := by
  unfold writersOf bare? Defines
  simp only [List.mem_map, List.mem_filter, Prod.exists, mem_blocks, List.any_eq_true,
    beq_iff_eq, Option.map_eq_some_iff]
  constructor
  · rintro ⟨_, c, ⟨hc, hx⟩, rfl⟩
    exact ⟨_, ⟨c, hc, rfl⟩, hx⟩
  · rintro ⟨_, ⟨c, hc, rfl⟩, hx⟩
    exact ⟨j, c, ⟨hc, hx⟩, rfl⟩

theorem nodup_writersOf (g : FlowGraph) (x : String) : (g.writersOf x).Nodup :=
  (List.filter_sublist.map _).nodup (nodup_ids g)

/-- **A variable is unused** in a block that writes it if no block reads it, no other block
writes it, and this block only declares it and assigns constants to it. -/
theorem unused_iff (hb : g.bare? id = some b) (hx : Defines b.body x) :
    Unused g id b x ↔ (∀ {j c}, g.bare? j = some c → x ∉ readNamesOf c) ∧
      (∀ {j c}, g.bare? j = some c → Defines c.body x → j = id) ∧
      ∀ i ∈ b.body, i.definedVariable = some x → isPlainDefinition i = true := by
  constructor
  · intro h
    refine ⟨fun hc => h.not_read hc, fun {j c} hc hdefines => ?_, fun i hi hdefined => ?_⟩
    all_goals
      unfold Unused isUnused at h
      simp only [Bool.and_eq_true, beq_iff_eq] at h
      obtain ⟨⟨-, hwriters⟩, hplain⟩ := h
    · have hmem : j ∈ g.writersOf x := mem_writersOf.2 ⟨c, hc, hdefines⟩
      rw [hwriters, List.mem_singleton] at hmem
      exact hmem
    · simpa [hdefined] using List.all_eq_true.1 hplain i hi
  · rintro ⟨hread, honly, hplain⟩
    unfold Unused isUnused
    have hwriters : g.writersOf x = [id] := by
      refine eq_singleton_of_nodup (nodup_writersOf g x) fun j => ?_
      rw [mem_writersOf]
      constructor
      · rintro ⟨c, hc, hdefines⟩
        exact honly hc hdefines
      · rintro rfl
        exact ⟨b, hb, hx⟩
    have hnone : x ∉ g.readVariables := by
      rw [mem_readVariables]
      rintro ⟨j, c, hc, hx⟩
      exact hread (j := j) (c := c.bare) (bare?_of_block? hc) hx
    simp only [hwriters, beq_self_eq_true, Bool.and_true, Bool.and_eq_true, Bool.not_eq_true',
      List.all_eq_true, Bool.or_eq_true, bne_iff_ne]
    refine ⟨by simpa using hnone, fun i hi => ?_⟩
    by_cases hdefined : i.definedVariable = some x
    · exact .inl (hplain i hi hdefined)
    · exact .inr hdefined

theorem isIdle_eq_true_iff {i : Instruction} :
    isIdle g id b i = true ↔ ∃ x, i.definedVariable = some x ∧ Unused g id b x := by
  unfold isIdle Unused
  rw [Option.any_eq_true]

/-! ## Passes that rest -/

/-- Nothing is to be done about the constants of a block. -/
inductive Steady (removeUnused : Bool) (g : FlowGraph) (id : BlockId) (b : Block) : Prop where
  /-- The test is a mistake. -/
  | mistake {message : String}
      (h : rewire (propagate .empty b.body).known b.terminator = .mistake message)
  /-- There is nothing to put in, and what is written is needed. -/
  | quiet {e : Terminator} (hnotes : (propagate .empty b.body).notes = [])
      (h : rewire (propagate .empty b.body).known b.terminator = .keep e none)
      (hneeded : removeUnused = true → ∀ x, Defines b.body x → ¬ Unused g id b x)

/-- There is nothing for the pass to do at the block. -/
def Pass.AtRest : Pass → FlowGraph → BlockId → Prop
  | constants removeUnused, g, id => ∀ b, g.bare? id = some b → Steady removeUnused g id b
  | emptyBlocks, g, id => detourTarget? g id = none
  | fusion, g, id => fusionTarget? g id = none

theorem Detour.target (h : Detour g old new b) : detourTarget? g old = some new := by
  obtain ⟨c, hc, rfl⟩ := Option.map_eq_some_iff.1 h.found
  have hpop : c.populated = true := h.populated
  have hempty : c.body = [] := h.empty
  have hjumps : c.terminator = .jump new := h.jumps
  unfold detourTarget?
  simp [hc, hpop, hjumps, h.distinct, h.notLast, Block.isEmpty, hempty]

theorem Fusible.target (hlisted : ListedOnce g) (hg : WellFormed g)
    (h : Fusible g into gone b tail) : fusionTarget? g gone = some into := by
  have hm := h.mergeable
  have hhead : g.bare? into = some b.bare := bare?_of_block? hm.head
  have hpreds : tail.predecessors = [into] := by
    have hlist : g.predecessors gone = tail.predecessors := by
      rw [predecessors, hm.found]
      rfl
    rw [← hlist]
    refine eq_singleton_of_nodup (hlisted gone) fun i => ⟨fun hi => ?_, ?_⟩
    · exact hm.only i ((hg.edges i gone).1 hi).2
    · rintro rfl
      refine (hg.edges i gone).2 ⟨trivial, (hg.target_live hhead ?_).1⟩
      rw [show b.bare.terminator = .jump gone from hm.jumps]
      exact List.mem_singleton_self _
  have habsorb : canAbsorb g into gone tail = true := by
    have hjump : (Terminator.jump gone == .jump gone) = true := by
      simp [BEq.beq, instBEqTerminator.beq]
    simp [canAbsorb, hm.distinct, hm.head, h.populated, hm.routine, hm.jumps, hjump]
  have helsewhere : isEnteredElsewhere g gone tail = false := by
    have hrole : ∀ info ∈ g.functions,
        (info.entry == some gone || info.calls.any (·.returnTo == gone)) = false := by
      intro info hinfo
      obtain ⟨f, hf⟩ := Array.mem_iff_getElem?.1 hinfo
      simp only [Bool.or_eq_false_iff, beq_eq_false_iff_ne, List.any_eq_false, beq_iff_eq]
      exact ⟨hm.entry hf, fun c hc => hm.calls hf hc⟩
    have hmarks : g.stateReferences tail.name = [] := by
      rw [List.eq_nil_iff_forall_not_mem]
      intro i hi
      obtain ⟨⟨_, c⟩, hc, rfl⟩ := List.mem_map.1 hi
      obtain ⟨hc, hpushed⟩ := List.mem_filter.1 hc
      obtain ⟨j, hj, hname⟩ := List.mem_filterMap.1 (List.contains_iff_mem.1 hpushed)
      refine h.unmarked (c := c.bare) (by rw [bare?, mem_blocks.1 hc]; rfl) ?_
      cases j with
      | pushState name =>
          cases hname
          exact hj
      | _ => cases hname
    unfold isEnteredElsewhere
    rw [hmarks, Bool.or_eq_false_iff]
    refine ⟨Array.any_eq_false'.2 fun info hinfo => ?_, rfl⟩
    simpa using hrole info hinfo
  unfold fusionTarget?
  simp [hm.found, h.tailPopulated, hm.first, hpreds, habsorb, helsewhere]

/-! ## Passes that do something -/

/-- What propagation of constants makes of a block where it does not rest, with the blocks
it reports.  Reads are lost of variables that the block writes, and writes of variables
that no other block writes; edges are lost to blocks that are reported. -/
structure Trimmed (g : FlowGraph) (id : BlockId) (b b' : Block) (changed : List BlockId) :
    Prop where
  same : b' = { b with body := b'.body, terminator := b'.terminator }
  reported : id ∈ changed
  reads : ∀ x ∈ readNamesOf b, x ∈ readNamesOf b' ∨ Defines b.body x
  defines : ∀ x, Defines b.body x → Defines b'.body x ∨
    ∀ {j c}, g.bare? j = some c → Defines c.body x → j = id
  marks : ∀ name, .pushState name ∈ b.body → .pushState name ∈ b'.body
  targets : ∀ j ∈ b.terminator.targets, j ∈ b'.terminator.targets ∨ j ∈ changed
  returns : b.terminator.isReturn = true → b'.terminator.isReturn = true
  jumps : ∀ j, b'.terminator = .jump j → b.terminator = .jump j ∨ j ∈ changed

/-- What a pass does to a block where it does not rest, with the blocks it reports. -/
inductive Progress (g : FlowGraph) (id : BlockId) (changed : List BlockId) (g' : FlowGraph) :
    Pass → Prop where
  /-- The block was simplified. -/
  | constants {removeUnused : Bool} {b b' : Block} (hb : g.bare? id = some b)
      (h : Rewritten g g' id b') (ht : Trimmed g id b b' changed) :
      Progress g id changed g' (.constants removeUnused)
  /-- The block was a detour and was taken out. -/
  | emptyBlocks {target : BlockId} {b bn : Block} (hd : Detour g id target b)
      (hnew : g.bare? target = some bn) (h : Elided g g' id target b.name bn.name)
      (hchanged : changed = (g.predecessors id ++ [target]).filter (· != id)) :
      Progress g id changed g' .emptyBlocks
  /-- The block was appended to its predecessor. -/
  | fusion {into : BlockId} {b tail : Block} (hf : Fusible g into id b tail)
      (h : Fused g g' into id b tail) (hchanged : changed = into :: g'.successors into) :
      Progress g id changed g' .fusion

theorem mem_dropRepeats {j : BlockId} (l : List BlockId) : j ∈ dropRepeats l ↔ j ∈ l := by
  fun_induction dropRepeats l with
  | case1 a rest ih => simp [ih]
  | case2 a b rest hne ih => simp [ih]
  | case3 l _ => rfl

/-- Dropping what is unused reports the block if anything is dropped. -/
theorem outcome_finish (removeUnused : Bool) (hw : WellFormed w.graph)
    (hb : w.graph.block? id = some b) (b₀ : Block) (changed : List BlockId) :
    ∃ changed' w', outcome (propagateConstants.finish removeUnused id b₀ changed) w =
        (.ok changed', w') ∧
      Rewritten w.graph w'.graph id { b.bare with
        body := b.body.filter fun i => !(removeUnused && isIdle w.graph id b i) } ∧
      (∀ j ∈ changed, j ∈ changed') ∧
      ((∃ i ∈ b.body, (removeUnused && isIdle w.graph id b i) = true) → id ∈ changed') ∧
      ((∀ i ∈ b.body, (removeUnused && isIdle w.graph id b i) = false) →
        w'.graph = w.graph ∧ ∀ j ∈ changed', j ∈ changed) := by
  have hbare : w.graph.bare? id = some b.bare := bare?_of_block? hb
  unfold propagateConstants.finish
  cases removeUnused with
  | false =>
      have hkept : (b.body.filter fun i => !(false && isIdle w.graph id b i)) = b.body := by simp
      rw [hkept]
      refine ⟨dropRepeats changed, w, rfl, .refl hw hbare, fun j => (mem_dropRepeats changed).2,
        ?_, fun _ => ⟨rfl, fun j => (mem_dropRepeats changed).1⟩⟩
      rintro ⟨_, _, h⟩
      simp at h
  | true =>
      simp only [if_true, Bool.true_and]
      obtain ⟨w₁, hdrop, hrewritten, hsame⟩ := outcome_dropUnused hw hb
      have hloop : Silent (ForIn.forIn (b.body.filter (isIdle w.graph id b)) PUnit.unit
          fun i _ => do
            recordConstant b₀ .instructionRemoved s!"removed unused '{i}'"
            pure (ForInStep.yield PUnit.unit)) :=
        .forIn fun i => (Silent.record _).bind fun _ => .pure _
      obtain ⟨_, w₂, hrecord, hgraph⟩ := hloop w₁
      refine ⟨dropRepeats (if (b.body.filter (isIdle w.graph id b)).isEmpty || changed.contains id
        then changed else changed ++ [id]), w₂, ?_, by rw [hgraph]; exact hrewritten, ?_, ?_, ?_⟩
      · unfold writeDropped
        simp only [bind_assoc]
        rw [outcome_bind_ok hdrop, outcome_bind_ok hrecord]
        rfl
      · intro j hj
        rw [mem_dropRepeats]
        split
        · exact hj
        · exact List.mem_append_left _ hj
      · rintro ⟨i, hi, hidle⟩
        rw [mem_dropRepeats]
        have hsome : (b.body.filter (isIdle w.graph id b)).isEmpty = false := by
          rw [List.isEmpty_eq_false_iff_exists_mem]
          exact ⟨i, List.mem_filter.2 ⟨hi, hidle⟩⟩
        split
        · rename_i hin
          simpa [hsome] using hin
        · exact List.mem_append_right _ (List.mem_singleton_self id)
      · intro hneeded
        have hnone : b.body.filter (isIdle w.graph id b) = [] := by
          rw [List.filter_eq_nil_iff]
          intro i hi
          simp [hneeded i hi]
        refine ⟨hgraph.trans (by rw [hsame hnone]), fun j hj => ?_⟩
        rw [mem_dropRepeats, hnone] at hj
        simpa using hj

/-- A definition that is dropped reads nothing. -/
theorem readNames_of_isIdle {i : Instruction} (hi : i ∈ b.body) (h : isIdle g id b i = true) :
    i.readNames = [] := by
  obtain ⟨x, -, ⟨type, rfl⟩ | ⟨l, rfl⟩⟩ := plain_of_isIdle hi h <;> rfl

/-- Dropping what is unused keeps all reads. -/
theorem mem_reads_filter (h : x ∈ reads b.body) :
    x ∈ reads (b.body.filter fun i => !(removeUnused && isIdle g id b i)) := by
  obtain ⟨i, hi, hx⟩ := List.mem_flatMap.1 h
  refine List.mem_flatMap.2 ⟨i, List.mem_filter.2 ⟨hi, ?_⟩, hx⟩
  cases hidle : isIdle g id b i with
  | false => simp
  | true =>
      rw [readNames_of_isIdle hi hidle] at hx
      cases hx

/-- Dropping what is unused keeps the writes of all other variables. -/
theorem defines_filter (h : Defines b.body x) :
    Defines (b.body.filter fun i => !(removeUnused && isIdle g id b i)) x ∨ Unused g id b x := by
  obtain ⟨i, hi, hx⟩ := h
  by_cases hunused : Unused g id b x
  · exact .inr hunused
  · refine .inl ⟨i, List.mem_filter.2 ⟨hi, ?_⟩, hx⟩
    have hneeded : isIdle g id b i = false := by
      rw [Bool.eq_false_iff, ne_eq, isIdle_eq_true_iff]
      rintro ⟨y, hy, hdropped⟩
      obtain rfl : x = y := Option.some.inj (hx.symm.trans hy)
      exact hunused hdropped
    simp [hneeded]

theorem mem_filter_of_marker {name : String} (h : .pushState name ∈ b.body) :
    .pushState name ∈ b.body.filter fun i => !(removeUnused && isIdle g id b i) :=
  List.mem_filter.2 ⟨h, by simp [isIdle, Instruction.definedVariable]⟩

theorem exit_of_rewire_keep {env : Constants} {e e' : Terminator} {note : Option String}
    (hr : rewire env e = .keep e' note) :
    e'.targets = e.targets ∧ e'.isReturn = e.isReturn ∧ ∀ j, e' = .jump j → e = .jump j := by
  cases e with
  | branch test onTrue onFalse =>
      simp only [rewire] at hr
      split at hr
      · cases hr
      · cases hr
      · cases hr
        exact ⟨rfl, rfl, fun j h => by cases h⟩
      · cases hr
  | finish =>
      cases hr
      exact ⟨rfl, rfl, fun j h => by cases h⟩
  | jump j =>
      cases hr
      exact ⟨rfl, rfl, fun _ h => h⟩
  | ret value =>
      cases value with
      | none =>
          cases hr
          exact ⟨rfl, rfl, fun j h => by cases h⟩
      | some o =>
          cases hr
          exact ⟨rfl, rfl, fun j h => by cases h⟩

theorem exit_of_rewire_collapse {env : Constants} {e : Terminator} {test : Comparison}
    {taken : Bool} {target dropped : BlockId}
    (hr : rewire env e = .collapse test taken target dropped) :
    (∀ j ∈ e.targets, j = target ∨ j = dropped) ∧ e.isReturn = false := by
  cases e with
  | branch test' onTrue onFalse =>
      simp only [rewire] at hr
      split at hr
      · cases hr
        exact ⟨fun j hj => by simpa [Terminator.targets] using hj, rfl⟩
      · cases hr
        exact ⟨fun j hj => by simpa [Terminator.targets, or_comm] using hj, rfl⟩
      · cases hr
      · cases hr
  | finish => cases hr
  | jump j => cases hr
  | ret value => cases value <;> cases hr

/-- Nothing is dropped exactly if what is written is needed. -/
theorem needed_iff :
    (∀ i ∈ b.body, (removeUnused && isIdle g id b i) = false) ↔
      (removeUnused = true → ∀ x, Defines b.body x → ¬ Unused g id b x) := by
  constructor
  · rintro h rfl x ⟨i, hi, hx⟩ hunused
    have hidle : isIdle g id b i = true := isIdle_eq_true_iff.2 ⟨x, hx, hunused⟩
    simpa [hidle] using h i hi
  · intro h i hi
    cases hidle : isIdle g id b i with
    | false => exact Bool.and_false _
    | true =>
        obtain ⟨x, hx, hunused⟩ := isIdle_eq_true_iff.1 hidle
        cases removeUnused with
        | false => rfl
        | true => exact absurd hunused (h rfl x ⟨i, hi, hx⟩)

/-- **What is left of a block** is trimmed, if the pass reports it. -/
theorem trimmed_of_reported {body : List Instruction} {e : Terminator} {g₁ : FlowGraph}
    {c : Block} {changed changed' : List BlockId}
    (hreported : Reported id b (some changed) body e)
    (h : Rewritten g g₁ id { b.bare with body, terminator := e })
    (hc : c.bare = { b.bare with body, terminator := e }) (hid : id ∈ changed')
    (hsub : ∀ j ∈ changed, j ∈ changed') :
    Trimmed g id b.bare { c.bare with
      body := c.body.filter fun i => !(removeUnused && isIdle g₁ id c i) } changed' := by
  have hbody : c.body = body := congrArg Block.body hc
  have hexit : c.bare.terminator = e := congrArg Block.terminator hc
  have hrephrased := hreported.simplified.rephrased
  have hterm : (∀ j ∈ b.terminator.targets, j ∈ e.targets ∨ j ∈ changed') ∧
      (b.terminator.isReturn = true → e.isReturn = true) ∧
      ∀ j, e = .jump j → b.terminator = .jump j ∨ j ∈ changed' := by
    cases hreported with
    | idle _ _ => exact ⟨fun j hj => .inl hj, fun hret => hret, fun j hj => .inl hj⟩
    | busy _ hr =>
        obtain ⟨htargets, hreturn, hjump⟩ := exit_of_rewire_keep hr
        exact ⟨fun j hj => .inl (htargets ▸ hj), fun hret => hreturn.trans hret,
          fun j hj => .inl (hjump j hj)⟩
    | @collapse test taken target dropped _ hr =>
        obtain ⟨htargets, hreturn⟩ := exit_of_rewire_collapse hr
        have htarget : target ∈ changed' := hsub _ (by simp)
        have hdropped : dropped ∈ changed' := hsub _ (by simp)
        refine ⟨fun j hj => .inr ?_, fun hret => absurd (hreturn.symm.trans hret) (by simp),
          fun j hj => ?_⟩
        · rcases htargets j hj with rfl | rfl
          · exact htarget
          · exact hdropped
        · cases hj
          exact .inr htarget
  refine ⟨by rw [hc], hid, fun x hx => ?_, fun x hx => ?_, fun name hname => ?_,
    hexit ▸ hterm.1, hexit ▸ hterm.2.1, hexit ▸ hterm.2.2⟩
  · rcases hrephrased.reads x hx with hx | hx
    · refine .inl ?_
      rw [mem_readNamesOf] at hx ⊢
      rw [hexit]
      exact hx.imp_left fun hx => mem_reads_filter (hbody ▸ hx)
    · exact .inr hx
  · have hx₁ : Defines c.body x := hbody ▸ (hrephrased.defines x).2 hx
    refine (defines_filter hx₁).imp_right fun hunused => ?_
    -- what is unused was written by no other block before
    intro j c' hc' hdefines
    have hfound : g₁.bare? id = some c.bare := by rw [h.found, hc]
    by_contra hj
    refine hj (((unused_iff hfound hx₁).1 hunused).2.1 (c := c') ?_ hdefines)
    rw [h.bare, if_neg (Ne.symm hj)]
    exact hc'
  · exact mem_filter_of_marker (hbody ▸ hrephrased.marks name hname)

/-- Propagation of constants reports nothing exactly where it rests. -/
theorem outcome_constants (removeUnused : Bool) (hw : WellFormed w.graph)
    (hfound : w.graph.block? id = some b) :
    ∃ changed w', outcome (propagateConstants removeUnused id) w = (.ok changed, w') ∧
      WellFormed w'.graph ∧
      (Steady removeUnused w.graph id b.bare → changed = [] ∧ w'.graph = w.graph) ∧
      (¬ Steady removeUnused w.graph id b.bare →
        Progress w.graph id changed w'.graph (.constants removeUnused)) := by
  have hb : w.graph.bare? id = some b.bare := bare?_of_block? hfound
  obtain ⟨reported, w₁, body, e, hrun, hreported, hquiet, hrewritten⟩ :=
    outcome_propagateConstants removeUnused hw hfound
  cases reported with
  | none =>
      have hsteady : Steady removeUnused w.graph id b.bare := by
        cases hreported with
        | mistake h => exact .mistake h
      exact ⟨[], w₁, hrun, hrewritten.wellFormed, fun _ => ⟨rfl, hquiet rfl⟩,
        fun h => absurd hsteady h⟩
  | some changed =>
      obtain ⟨c, hc, hsame⟩ := Option.map_eq_some_iff.1 hrewritten.found
      obtain ⟨changed', w₂, hfinish, hrewritten₂, hsub, hdrops, hneeded⟩ :=
        outcome_finish removeUnused hrewritten.wellFormed hc b changed
      -- where nothing was put in, the block is offered as it was
      have hunchanged : changed = [] → w₁.graph = w.graph ∧ c = b := by
        rintro rfl
        have hgraph := hquiet rfl
        exact ⟨hgraph, Option.some.inj (hc.symm.trans (by rw [hgraph, hfound]))⟩
      refine ⟨changed', w₂, hrun.trans hfinish, hrewritten₂.wellFormed, fun hsteady => ?_,
        fun hbusy => ?_⟩
      · cases hsteady with
        | mistake h =>
            cases hreported with
            | idle _ h' => cases h.symm.trans h'
            | busy _ h' => cases h.symm.trans h'
            | collapse _ h' => cases h.symm.trans h'
        | quiet hnotes h hall =>
            have hempty : changed = [] := by
              cases hreported with
              | idle _ _ => rfl
              | busy hnotes' h' =>
                  cases h.symm.trans h'
                  exact absurd (List.append_eq_nil_iff.2 ⟨hnotes, rfl⟩) hnotes'
              | collapse _ h' => cases h.symm.trans h'
            subst hempty
            obtain ⟨hgraph, rfl⟩ := hunchanged rfl
            obtain ⟨hgraph₂, hback⟩ := hneeded (by rw [hgraph]; exact needed_iff.2 hall)
            exact ⟨List.eq_nil_iff_forall_not_mem.2 fun j hj => by simpa using hback j hj,
              hgraph₂.trans hgraph⟩
      · have hid : id ∈ changed' := by
          cases hreported with
          | idle hnotes h =>
              obtain ⟨hgraph, rfl⟩ := hunchanged rfl
              by_contra hid
              refine hbusy (.quiet hnotes h (needed_iff.1 fun i hi => ?_))
              rw [Bool.eq_false_iff]
              exact fun hidle => hid (hdrops ⟨i, hi, hgraph ▸ hidle⟩)
          | busy _ _ => exact hsub _ (List.mem_singleton_self id)
          | collapse _ _ => exact hsub _ (by simp)
        exact .constants hb (hrewritten.trans hrewritten₂)
          (trimmed_of_reported hreported hrewritten hsame hid hsub)

/-- Elision reports nothing exactly where it rests. -/
theorem outcome_elideEmptyBlock (hw : WellFormed w.graph) (id : BlockId) :
    ∃ changed w', outcome (elideEmptyBlock id) w = (.ok changed, w') ∧
      WellFormed w'.graph ∧
      (detourTarget? w.graph id = none → changed = [] ∧ w'.graph = w.graph) ∧
      (detourTarget? w.graph id ≠ none → Progress w.graph id changed w'.graph .emptyBlocks) := by
  have hgraph : outcome Transform.graph w = (.ok w.graph, w) := rfl
  unfold elideEmptyBlock
  rw [outcome_bind_ok hgraph]
  cases htarget : detourTarget? w.graph id with
  | none => exact ⟨[], w, rfl, hw, fun _ => ⟨rfl, rfl⟩, fun h => absurd rfl h⟩
  | some target =>
      obtain ⟨b, bn, g₁, g₂, hd, hnew, hredirect, hremove, hg₂, helided⟩ :=
        exists_elided hw htarget
      dsimp only
      rw [outcome_bind_ok (outcome_edit hredirect),
        outcome_bind_ok (outcome_edit (w := { w with graph := g₁ }) hremove)]
      exact ⟨_, _, rfl, hg₂, nofun, fun _ => .emptyBlocks hd hnew helided rfl⟩

/-- Fusion reports nothing exactly where it rests. -/
theorem outcome_fuseBlock (hw : WellFormed w.graph) (id : BlockId) :
    ∃ changed w', outcome (fuseBlock id) w = (.ok changed, w') ∧
      WellFormed w'.graph ∧
      (fusionTarget? w.graph id = none → changed = [] ∧ w'.graph = w.graph) ∧
      (fusionTarget? w.graph id ≠ none → Progress w.graph id changed w'.graph .fusion) := by
  have hgraph : outcome Transform.graph w = (.ok w.graph, w) := rfl
  unfold fuseBlock
  rw [outcome_bind_ok hgraph]
  cases htarget : fusionTarget? w.graph id with
  | none => exact ⟨[], w, rfl, hw, fun _ => ⟨rfl, rfl⟩, fun h => absurd rfl h⟩
  | some pred =>
      obtain ⟨b, tail, hf⟩ := fusible_of_fusionTarget? hw htarget
      dsimp only
      rw [outcome_bind_ok (outcome_edit (outcome_mergeInto hw hf.mergeable))]
      exact ⟨_, _, rfl, wellFormed_mergeResult hw hf.mergeable, nofun,
        fun _ => .fusion hf (.mergeResult hf) rfl⟩

/-- **A pass reports nothing exactly where it rests.**  There it leaves the graph alone. -/
theorem outcome_apply (pass : Pass) (hw : WellFormed w.graph) (id : BlockId) :
    ∃ changed w', outcome (pass.apply id) w = (.ok changed, w') ∧
      WellFormed w'.graph ∧
      (pass.AtRest w.graph id → changed = [] ∧ w'.graph = w.graph) ∧
      (¬ pass.AtRest w.graph id → Progress w.graph id changed w'.graph pass) := by
  cases pass with
  | emptyBlocks => exact outcome_elideEmptyBlock hw id
  | fusion => exact outcome_fuseBlock hw id
  | constants removeUnused =>
      cases hb : w.graph.block? id with
      | none =>
          have hgraph : outcome Transform.graph w = (.ok w.graph, w) := rfl
          have hrest : Pass.AtRest (.constants removeUnused) w.graph id := by
            intro b hbare
            rw [bare?, hb] at hbare
            cases hbare
          refine ⟨[], w, ?_, hw, fun _ => ⟨rfl, rfl⟩, fun h => absurd hrest h⟩
          show outcome (propagateConstants removeUnused id) w = _
          unfold propagateConstants
          rw [outcome_bind_ok hgraph, hb]
          rfl
      | some b =>
          obtain ⟨changed, w', hrun, hw', hrest, hbusy⟩ := outcome_constants removeUnused hw hb
          have hbare : w.graph.bare? id = some b.bare := bare?_of_block? hb
          refine ⟨changed, w', hrun, hw', fun h => hrest (h _ hbare),
            fun h => hbusy fun hsteady => ?_⟩
          refine h fun c hc => ?_
          rw [hbare] at hc
          cases hc
          exact hsteady

end Simplify
end FlowVerifier
