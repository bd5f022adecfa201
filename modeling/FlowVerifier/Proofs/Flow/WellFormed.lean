import FlowVerifier.Proofs.Flow.Edges

/-!
# Well-formed graphs

`WellFormed` says in logical terms what `validate` checks, and `validate_iff`
that it does.  The edits of the simplifier are then followed on well-formed
graphs: each succeeds, its result is well-formed, and the bare blocks of the
result are known.

* `redirect` and then `removeNode` take a block out for which another stands in.
* `mergeInto` appends a block to its only predecessor.
-/

namespace FlowVerifier
namespace FlowGraph

variable {g g' : FlowGraph} {id i j : BlockId}

/-! ## What is checked -/

/-- A terminator keeps the rules: both sides of a branch differ, and only blocks of
functions return. -/
structure SoundExit (t : Terminator) (function : Option FunctionId) : Prop where
  sides : ∀ {test onTrue onFalse}, t = .branch test onTrue onFalse → onTrue ≠ onFalse
  returns : t.isReturn = true → function ≠ none

theorem soundExit_finish (f : Option FunctionId) : SoundExit .finish f := by
  constructor
  · intro test onTrue onFalse h
    exact nomatch h
  · intro h
    exact absurd h (by simp [Terminator.isReturn])

theorem soundExit_jump (target : BlockId) (f : Option FunctionId) :
    SoundExit (.jump target) f := by
  constructor
  · intro test onTrue onFalse h
    exact nomatch h
  · intro h
    exact absurd h (by simp [Terminator.isReturn])

theorem SoundExit.normalize {t : Terminator} {f : Option FunctionId} (h : SoundExit t f) :
    t.normalize = t := by
  cases t with
  | branch test onTrue onFalse =>
      have hsides : onTrue ≠ onFalse := h.sides rfl
      simp [Terminator.normalize, hsides]
  | _ => rfl

/-- The rules that edits keep. -/
structure WellFormed (g : FlowGraph) : Prop where
  /-- The lists of predecessors hold exactly the edges. -/
  edges : Listed (fun _ => True) g
  /-- Every terminator keeps the rules. -/
  exits : ∀ {id b}, g.bare? id = some b → SoundExit b.terminator b.function
  /-- Every block with a role exists. -/
  roles : ∀ id ∈ g.designated, g.contains id = true

theorem edgeDefect?_eq_none_iff {b : Block} {target : BlockId} :
    g.edgeDefect? id b target = none ↔ id ∈ g.predecessors target := by
  unfold edgeDefect?
  rw [mem_predecessors_iff]
  cases g.block? target with
  | none => simp
  | some t => by_cases h : id ∈ t.predecessors <;> simp [h]

theorem predecessorDefect?_eq_none_iff {b : Block} {pred : BlockId} :
    g.predecessorDefect? id b pred = none ↔ id ∈ g.successors pred := by
  unfold predecessorDefect?
  by_cases h : id ∈ g.successors pred <;> simp [h]

theorem terminatorDefect?_eq_none_iff {b : Block} :
    terminatorDefect? b = none ↔ SoundExit b.terminator b.function := by
  unfold terminatorDefect?
  cases b.terminator with
  | finish => simpa using soundExit_finish _
  | jump target => simpa using soundExit_jump target _
  | branch test onTrue onFalse =>
      by_cases h : onTrue = onFalse
      · simpa [h] using fun hs : SoundExit _ _ => hs.sides rfl h
      · simp only [if_neg h, true_iff]
        refine ⟨fun heq => ?_, fun heq => absurd heq (by simp [Terminator.isReturn])⟩
        cases heq
        exact h
  | ret value =>
      cases b.function with
      | none => simpa using fun hs : SoundExit _ _ => hs.returns rfl rfl
      | some f =>
          simp only [Option.isNone_some, Bool.false_eq_true, if_false, true_iff]
          constructor
          · intro test onTrue onFalse heq
            exact nomatch heq
          · exact fun _ => nofun

theorem blockDefect?_eq_none_iff {b : Block} :
    g.blockDefect? id b = none ↔
      (∀ j ∈ g.successors id, id ∈ g.predecessors j) ∧
        (∀ i ∈ b.predecessors, id ∈ g.successors i) ∧ terminatorDefect? b = none := by
  unfold blockDefect?
  simp only [Option.orElse_eq_orElse, Option.orElse_eq_or, Option.or_eq_none_iff,
    List.findSome?_eq_none_iff, edgeDefect?_eq_none_iff, predecessorDefect?_eq_none_iff]

/-- **Validation** accepts exactly the well-formed graphs. -/
theorem validate_iff : g.validate = .ok () ↔ WellFormed g := by
  have hdefect : g.validate = .ok () ↔ g.defect? = none := by
    unfold validate
    cases g.defect? <;> simp
  rw [hdefect, defect?, Option.orElse_eq_orElse, Option.orElse_eq_or, Option.or_eq_none_iff,
    List.findSome?_eq_none_iff, Option.map_eq_none_iff, List.find?_eq_none]
  simp only [Prod.forall, mem_blocks, blockDefect?_eq_none_iff, terminatorDefect?_eq_none_iff]
  constructor
  · rintro ⟨hb, hroles⟩
    refine ⟨fun i j => ?_, fun h => ?_, fun id hid => by simpa using hroles id hid⟩
    case refine_2 =>
      obtain ⟨b, hid, rfl⟩ := Option.map_eq_some_iff.1 h
      exact (hb _ b hid).2.2
    simp only [true_and]
    constructor
    · intro hi
      obtain ⟨b, hj, hmem⟩ := mem_predecessors_iff.1 hi
      exact (hb j b hj).2.1 i hmem
    · intro hj
      cases hi : g.block? i with
      | none => simp [successors, hi] at hj
      | some b => exact (hb i b hi).1 j hj
  · intro h
    refine ⟨fun id b hb => ⟨?_, ?_, ?_⟩, ?_⟩
    · intro j hj
      exact (h.edges id j).2 ⟨trivial, hj⟩
    · intro i hi
      exact ((h.edges i id).1 (mem_predecessors_iff.2 ⟨b, hb, hi⟩)).2
    · have hbare : g.bare? id = some b.bare := bare?_of_block? hb
      have hexit := h.exits hbare
      exact hexit
    · intro id hid
      simpa using h.roles id hid

/-! ## Edges and roles -/

theorem mem_returnSites {info : FunctionInfo} :
    j ∈ info.returnSites ↔ ∃ c ∈ info.calls, c.returnTo = j := by
  unfold FunctionInfo.returnSites
  rw [List.mem_eraseDups, List.mem_mergeSort, List.mem_map]

theorem mem_successors :
    j ∈ g.successors i ↔ ∃ b, g.bare? i = some b ∧
      if b.terminator.isReturn then ∃ f info, b.function = some f ∧ g.function? f = some info ∧
        ∃ c ∈ info.calls, c.returnTo = j
      else j ∈ b.terminator.targets := by
  unfold successors bare?
  cases g.block? i with
  | none => simp
  | some b =>
      simp only [Option.map_some, Option.some.injEq, exists_eq_left', Block.bare]
      split
      · unfold returnSitesOf
        cases b.function with
        | none => simp
        | some f =>
            cases hf : g.function? f with
            | none => simp [hf]
            | some info => simp [hf, mem_returnSites]
      · rfl

theorem mem_designated :
    id ∈ g.designated ↔ g.first = some id ∨ g.last = some id ∨
      ∃ f info, g.function? f = some info ∧ (info.entry = some id ∨ info.exit = some id ∨
        ∃ c ∈ info.calls, c.caller = id ∨ c.returnTo = id) := by
  have hf : ∀ info, info ∈ g.functions.toList ↔ ∃ f, g.function? f = some info := by
    intro info
    simp only [function?, Array.mem_toList_iff, Array.mem_iff_getElem?]
  unfold designated designatedBy
  simp only [List.mem_append, Option.mem_toList, List.mem_flatMap, hf, List.mem_cons,
    List.not_mem_nil, or_false]
  constructor
  · rintro (((h | h) | ⟨info, ⟨f, h⟩, h'⟩) | ⟨info, ⟨f, h⟩, c, hc, h'⟩)
    · exact .inl h
    · exact .inr (.inl h)
    · exact .inr (.inr ⟨f, info, h, h'.imp_right .inl⟩)
    · exact .inr (.inr ⟨f, info, h, .inr (.inr ⟨c, hc, h'.imp Eq.symm Eq.symm⟩)⟩)
  · rintro (h | h | ⟨f, info, h, h' | h' | ⟨c, hc, h'⟩⟩)
    · exact .inl (.inl (.inl h))
    · exact .inl (.inl (.inr h))
    · exact .inl (.inr ⟨info, ⟨f, h⟩, .inl h'⟩)
    · exact .inl (.inr ⟨info, ⟨f, h⟩, .inr h'⟩)
    · exact .inr ⟨info, ⟨f, h⟩, c, hc, h'.imp Eq.symm Eq.symm⟩

theorem WellFormed.returnTo_live (h : WellFormed g) {f : FunctionId} {info : FunctionInfo}
    {c : Call} (hf : g.function? f = some info) (hc : c ∈ info.calls) :
    g.contains c.returnTo = true :=
  h.roles _ (mem_designated.2 (.inr (.inr ⟨f, info, hf, .inr (.inr ⟨c, hc, .inr rfl⟩)⟩)))

/-- A terminator names blocks that exist. -/
theorem WellFormed.target_live (h : WellFormed g) {b : Block} (hb : g.bare? id = some b)
    {t : BlockId} (ht : t ∈ b.terminator.targets) :
    t ∈ g.successors id ∧ g.contains t = true := by
  have hplain : b.terminator.isReturn = false := by
    cases hterm : b.terminator with
    | ret value => simp [hterm, Terminator.targets] at ht
    | _ => rfl
  have hedge : t ∈ g.successors id := mem_successors.2 ⟨b, hb, by simpa [hplain] using ht⟩
  exact ⟨hedge, h.edges.contains (i := id) trivial hedge⟩

/-! ## Changes of one block -/

/-- A change that leaves the lists, the edges and the roles alone. -/
theorem WellFormed.transport (h : WellFormed g)
    (hpreds : ∀ j, g'.predecessors j = g.predecessors j)
    (hexits : ∀ id, (g'.bare? id).map (fun b => (b.terminator, b.function)) =
      (g.bare? id).map fun b => (b.terminator, b.function))
    (hfunctions : g'.functions = g.functions) (hfirst : g'.first = g.first)
    (hlast : g'.last = g.last) : WellFormed g' := by
  have hbare : ∀ {id b'}, g'.bare? id = some b' →
      ∃ b, g.bare? id = some b ∧ b'.terminator = b.terminator ∧ b'.function = b.function := by
    intro id b' hb'
    have he := hexits id
    rw [hb'] at he
    obtain ⟨b, hb, heq⟩ := Option.map_eq_some_iff.1 he.symm
    obtain ⟨ht, hf⟩ := Prod.mk.inj heq
    exact ⟨b, hb, ht.symm, hf.symm⟩
  have hcontains : ∀ id, g'.contains id = g.contains id := by
    intro id
    have he := congrArg Option.isSome (hexits id)
    simpa [contains_eq_isSome_bare?] using he
  refine ⟨h.edges.transport hpreds fun i _ =>
    successors_congr_exits (hexits i) (returnSitesOf_congr hfunctions), ?_, ?_⟩
  · intro id b' hb'
    obtain ⟨b, hb, ht, hf⟩ := hbare hb'
    rw [ht, hf]
    exact h.exits hb
  · intro id hid
    rw [hcontains]
    refine h.roles id ?_
    unfold designated at hid ⊢
    rwa [hfunctions, hfirst, hlast] at hid

/-- Another body breaks no rule. -/
theorem WellFormed.setBody (h : WellFormed g) (id : BlockId) (body : List Instruction) :
    WellFormed (g.modifyBlock id fun b => { b with body }) := by
  refine h.transport (predecessors_modifyBlock (f := fun b => { b with body }) (fun _ => rfl) g id)
    (fun j => ?_) rfl rfl rfl
  · rw [bare?_modifyBlock]
    split
    · unfold bare?
      cases g.block? j <;> rfl
    · rfl

/-- The successors of a block after a change of its terminator. -/
theorem mem_successors_withTerminator {t : Terminator} {b : Block} (hb : g.bare? id = some b)
    (hj : j ∈ (g.withTerminator id t).successors id) :
    j ∈ t.targets ∨ ∃ f info, g.function? f = some info ∧ ∃ c ∈ info.calls, c.returnTo = j := by
  obtain ⟨b', hb', hj⟩ := mem_successors.1 hj
  rw [bare?_withTerminator, if_pos rfl, hb, Option.map_some, Option.some.injEq] at hb'
  subst hb'
  dsimp only at hj
  split at hj
  · obtain ⟨f, info, _, hf, hc⟩ := hj
    unfold function? at hf
    rw [functions_withTerminator] at hf
    exact .inr ⟨f, info, hf, hc⟩
  · exact .inl hj

/-- **Another terminator** breaks no rule if its targets exist. -/
theorem WellFormed.withTerminator (h : WellFormed g) {t : Terminator} {b : Block}
    (hb : g.bare? id = some b) (hsound : SoundExit t b.function)
    (ht : ∀ target ∈ t.targets, g.contains target = true) :
    WellFormed (g.withTerminator id t) := by
  refine ⟨(listed_withTerminator h.edges ?_).congr fun i => by simp, ?_, ?_⟩
  · intro j hj
    rcases mem_successors_withTerminator hb hj with hj | ⟨f, info, hf, c, hc, rfl⟩
    · exact ht j hj
    · exact h.returnTo_live hf hc
  · intro j b' hb'
    rw [bare?_withTerminator] at hb'
    split at hb'
    · rename_i heq
      subst heq
      rw [hb, Option.map_some, Option.some.injEq] at hb'
      subst hb'
      exact hsound
    · exact h.exits hb'
  · intro j hj
    rw [contains_withTerminator]
    refine h.roles j ?_
    unfold designated at hj ⊢
    rwa [functions_withTerminator, first_withTerminator, last_withTerminator] at hj

/-! ## Changes of functions -/

/-- After a change of the calls to live blocks, returning blocks lead to live blocks. -/
theorem contains_of_mem_editCalls {f : FunctionId} {change : List Call → List Call}
    (hlive : ∀ info, g.function? f = some info → ∀ c ∈ change info.calls,
      g.contains c.returnTo = true) (hi : i ∈ g.returningBlocks f)
    (hj : j ∈ (g.editCalls f change).successors i) : g.contains j = true := by
  obtain ⟨b, hb, hf, ht⟩ := mem_returningBlocks_bare.1 hi
  obtain ⟨b', hb', hj⟩ := mem_successors.1 hj
  rw [bare?_editCalls, hb, Option.some.injEq] at hb'
  subst hb'
  rw [if_pos ht] at hj
  obtain ⟨k, info, hk, hinfo, c, hc, rfl⟩ := hj
  obtain rfl : f = k := Option.some.inj (hf.symm.trans hk)
  rw [function?_editCalls, if_pos rfl] at hinfo
  obtain ⟨info', hinfo', rfl⟩ := Option.map_eq_some_iff.1 hinfo
  exact hlive info' hinfo' c hc

/-- The lists follow a change of the calls of a function to other live blocks. -/
theorem Listed.editCalls {P : BlockId → Prop} {f : FunctionId} {change : List Call → List Call}
    (h : Listed P g) (hall : ∀ i ∈ g.returningBlocks f, P i)
    (hlive : ∀ info, g.function? f = some info → ∀ c ∈ change info.calls,
      g.contains c.returnTo = true) :
    Listed P (g.editCalls f change) :=
  listed_editCalls h hall fun _ hi _ hj => contains_of_mem_editCalls hlive hi hj

/-- A change of a function that keeps its calls changes no edge. -/
theorem successors_modifyFunction_calls {f : FunctionId} {change : FunctionInfo → FunctionInfo}
    (hcalls : ∀ info, (change info).calls = info.calls) (g : FlowGraph) (i : BlockId) :
    (g.modifyFunction f change).successors i = g.successors i := by
  refine successors_congr_sites rfl fun k => ?_
  unfold returnSitesOf
  cases k with
  | none => rfl
  | some k =>
      simp only [Option.bind_some, function?_modifyFunction]
      split
      · cases g.function? k with
        | none => rfl
        | some info => simp [FunctionInfo.returnSites, hcalls]
      · rfl

theorem Listed.modifyFunction {P : BlockId → Prop} {f : FunctionId}
    {change : FunctionInfo → FunctionInfo} (h : Listed P g)
    (hcalls : ∀ info, (change info).calls = info.calls) :
    Listed P (g.modifyFunction f change) :=
  h.transport (fun _ => rfl) fun i _ => successors_modifyFunction_calls hcalls g i

/-- A step that changes one function and what follows from its calls. -/
structure FunctionStep (step : FlowGraph → FunctionId → FlowGraph)
    (change : FunctionInfo → FunctionInfo) : Prop where
  bare : ∀ g f id, (step g f).bare? id = g.bare? id
  first : ∀ g f, (step g f).first = g.first
  last : ∀ g f, (step g f).last = g.last
  function : ∀ g f k, (step g f).function? k =
    if f = k then (g.function? k).map change else g.function? k

namespace FunctionStep

variable {step : FlowGraph → FunctionId → FlowGraph} {change : FunctionInfo → FunctionInfo}

theorem contains (h : FunctionStep step change) (g : FlowGraph) (f : FunctionId) (id : BlockId) :
    (step g f).contains id = g.contains id := by
  rw [contains_eq_isSome_bare?, contains_eq_isSome_bare?, h.bare]

/-- Functions are changed one after the other. -/
theorem foldl (h : FunctionStep step change) {I : FlowGraph → Prop}
    (hstep : ∀ g f, I g → I (step g f)) (hg : I g) {fs : List FunctionId} (hnodup : fs.Nodup) :
    I (fs.foldl step g) ∧ (∀ id, (fs.foldl step g).bare? id = g.bare? id) ∧
      (fs.foldl step g).first = g.first ∧ (fs.foldl step g).last = g.last ∧
      ∀ k, (fs.foldl step g).function? k =
        if k ∈ fs then (g.function? k).map change else g.function? k := by
  induction fs generalizing g with
  | nil => exact ⟨hg, fun _ => rfl, rfl, rfl, fun k => by simp⟩
  | cons f fs ih =>
      obtain ⟨hf, hfs⟩ := List.nodup_cons.1 hnodup
      obtain ⟨hI, hbare, hfirst, hlast, hfun⟩ := ih (hstep g f hg) hfs
      refine ⟨hI, fun id => (hbare id).trans (h.bare g f id), hfirst.trans (h.first g f),
        hlast.trans (h.last g f), fun k => ?_⟩
      rw [List.foldl_cons, hfun, h.function]
      by_cases hk : f = k
      · subst hk
        simp [hf]
      · simp only [if_neg hk, List.mem_cons, Ne.symm hk, false_or]

/-- All functions are changed. -/
theorem foldl_range (h : FunctionStep step change) {I : FlowGraph → Prop}
    (hstep : ∀ g f, I g → I (step g f)) (hg : I g) {n : Nat} (hn : n = g.functions.size) :
    I ((List.range n).foldl step g) ∧
      (∀ id, ((List.range n).foldl step g).bare? id = g.bare? id) ∧
      ((List.range n).foldl step g).first = g.first ∧
      ((List.range n).foldl step g).last = g.last ∧
      ∀ k, ((List.range n).foldl step g).function? k = (g.function? k).map change := by
  obtain ⟨hI, hbare, hfirst, hlast, hfun⟩ := h.foldl hstep hg (List.nodup_range (n := n))
  refine ⟨hI, hbare, hfirst, hlast, fun k => ?_⟩
  rw [hfun]
  split
  · rfl
  · rename_i hout
    rw [List.mem_range, Nat.not_lt, hn] at hout
    rw [function?, Array.getElem?_eq_none hout]
    rfl

end FunctionStep

end FlowGraph
end FlowVerifier
