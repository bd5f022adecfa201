import FlowVerifier.Proofs.Flow.Severing

/-!
# Removing a block from a graph

`removeNode` takes a block out of the lists, cuts the edges to it, drops its calls and
hands its role as an exit on.  On a well-formed graph it fails only where the role of an
exit has no heir, and its result is well-formed but for two cases, as `removeNode_cases`
says exactly.

* `InheritsLoop`: the block is an exit that leads to itself, and its heir takes over its
  terminator, with the edge to the block that goes.
* `ReturnsOn`: the block returns, some but not all calls of its function begin or end at
  it, and the change of the calls enters the block in the lists of the others again.

The parts of the proof are the parts of the removal: `Cut` for the edges, the calls in
`listed_foldl_forgetIn`, and `Settled` for the roles.

* `outcome_removeNode`: a block that nothing refers to is removed, and nothing else
  changes.
* `Tame` graphs, in which no exit leads to itself and no function calls itself, survive
  any number of removals.
-/

namespace FlowVerifier
namespace FlowGraph

variable {g g₀ g' : FlowGraph} {id i j p : BlockId} {gone b : Block}

/-! ## What breaks a graph -/

/-- The block is an exit that leads to itself, and another block is its heir. -/
def InheritsLoop (g : FlowGraph) (id : BlockId) (gone : Block) : Prop :=
  gone.isExit = true ∧ id ∈ gone.terminator.targets ∧
    ∃ p b, p ≠ id ∧ g.bare? p = some b ∧ b.terminator = .jump id ∧ b.function = gone.function

/-- The block returns, and of the calls of its function some begin or end at the block
and some do not. -/
def ReturnsOn (g : FlowGraph) (id : BlockId) (gone : Block) : Prop :=
  gone.terminator.isReturn = true ∧
    ∃ f info, gone.function = some f ∧ g.function? f = some info ∧
      (∃ c ∈ info.calls, c.caller = id ∨ c.returnTo = id) ∧
      ∃ c ∈ info.calls, c.caller ≠ id ∧ c.returnTo ≠ id

/-! ## Calls -/

/-- The function without the block, whose role as an exit goes to an heir. -/
def forgottenInfo (old : BlockId) (heir : Option BlockId) (info : FunctionInfo) : FunctionInfo :=
  { info with
    calls := info.calls.filter fun c => c.caller != old && c.returnTo != old
    entry := if info.entry = some old then none else info.entry
    exit := if info.exit = some old then heir else info.exit }

theorem function?_forgetIn (old : BlockId) (heir : Option BlockId) (g : FlowGraph)
    (f k : FunctionId) :
    (forgetIn old heir g f).function? k =
      if f = k then (g.function? k).map (forgottenInfo old heir) else g.function? k := by
  unfold forgetIn
  dsimp only
  rw [function?_modifyFunction]
  by_cases hk : f = k
  · subst hk
    simp only [if_true]
    split
    · rw [function?_editCalls, if_pos rfl, Option.map_map]
      rfl
    · -- no call begins or ends at the block
      rename_i hcalls
      cases hf : g.function? f with
      | none => rfl
      | some info =>
          have hsame : (info.calls.filter fun c => c.caller != old && c.returnTo != old) =
              info.calls := by
            rw [List.filter_eq_self]
            intro c hc
            have hno : ¬ (c.caller = old ∨ c.returnTo = old) := by
              intro heq
              exact hcalls (by simpa [hf] using ⟨c, hc, heq⟩)
            simpa [not_or] using hno
          simp [forgottenInfo, hsame]
  · simp only [if_neg hk]
    split
    · rw [function?_editCalls, if_neg hk]
    · rfl

theorem functionStep_forgetIn (old : BlockId) (heir : Option BlockId) :
    FunctionStep (forgetIn old heir) (forgottenInfo old heir) := by
  refine ⟨fun g f id => ?_, fun g f => ?_, fun g f => ?_, function?_forgetIn old heir⟩ <;>
    unfold forgetIn <;> dsimp only <;> split
  · exact bare?_editCalls g f _ id
  · rfl
  · exact first_editCalls g f _
  · rfl
  · exact last_editCalls g f _
  · rfl

/-- All functions forget the block. -/
theorem foldl_forgetIn (old : BlockId) (heir : Option BlockId) (g : FlowGraph) :
    (∀ j, ((List.range g.functions.size).foldl (forgetIn old heir) g).bare? j = g.bare? j) ∧
      ((List.range g.functions.size).foldl (forgetIn old heir) g).first = g.first ∧
      ((List.range g.functions.size).foldl (forgetIn old heir) g).last = g.last ∧
      ∀ k, ((List.range g.functions.size).foldl (forgetIn old heir) g).function? k =
        (g.function? k).map (forgottenInfo old heir) :=
  ((functionStep_forgetIn old heir).foldl_range (I := fun _ => True) (fun _ _ _ => trivial)
    (g := g) trivial rfl).2

/-- A call of the function begins or ends at the block, and the block returns from it. -/
def Returning (g : FlowGraph) (id : BlockId) (f : FunctionId) : Prop :=
  id ∈ g.returningBlocks f ∧
    ∃ info, g.function? f = some info ∧ ∃ c ∈ info.calls, c.caller = id ∨ c.returnTo = id

/-- Taking a block out of the record of a function enters it in the lists again if it
returns from the function. -/
theorem listed_forgetIn {P : BlockId → Prop} (h : Listed P g) (hP : ∀ i, i ≠ id → P i)
    (hcalls : ∀ {f info c}, g.function? f = some info → c ∈ info.calls →
      g.contains c.returnTo = true) (heir : Option BlockId) (f : FunctionId) :
    Listed (fun i => P i ∨ i = id ∧ Returning g id f) (forgetIn id heir g f) := by
  unfold forgetIn
  dsimp only
  refine Listed.modifyFunction ?_ fun _ => rfl
  split
  · rename_i hconcerned
    have hmentions : ∃ info, g.function? f = some info ∧
        ∃ c ∈ info.calls, c.caller = id ∨ c.returnTo = id := by
      simpa [Option.any_eq_true, List.any_eq_true] using hconcerned
    have hlists : Listed (fun i => P i ∨ i ∈ g.returningBlocks f)
        (g.editCalls f fun calls => calls.filter fun c => c.caller != id && c.returnTo != id) :=
      listed_editCalls_returning h fun i hi j hj => contains_of_mem_editCalls
        (fun info hf c hc => hcalls hf (List.mem_filter.1 hc).1) hi hj
    refine hlists.congr fun i => ?_
    constructor
    · rintro (hi | hi)
      · exact .inl hi
      · by_cases heq : i = id
        · exact .inr ⟨heq, heq ▸ hi, hmentions⟩
        · exact .inl (hP i heq)
    · rintro (hi | ⟨rfl, hi, -⟩)
      · exact .inl hi
      · exact .inr hi
  · rename_i hconcerned
    refine h.congr fun i => ⟨.inl, ?_⟩
    rintro (hi | ⟨-, -, info, hf, c, hc, hmentions⟩)
    · exact hi
    · refine absurd ?_ hconcerned
      simpa [hf] using ⟨c, hc, hmentions⟩

/-- **All functions.**  The block is in the lists again if it returns from a function
of whose calls one begins or ends at it. -/
theorem listed_foldl_forgetIn {P : BlockId → Prop} (h : Listed P g) (hP : ∀ i, i ≠ id → P i)
    (hcalls : ∀ {f info c}, g.function? f = some info → c ∈ info.calls →
      g.contains c.returnTo = true) (heir : Option BlockId) {fs : List FunctionId}
    (hnodup : fs.Nodup) :
    Listed (fun i => P i ∨ i = id ∧ ∃ f ∈ fs, Returning g id f)
      (fs.foldl (forgetIn id heir) g) := by
  induction fs generalizing g P with
  | nil => exact h.congr fun i => by simp
  | cons f fs ih =>
      obtain ⟨hf, hfs⟩ := List.nodup_cons.1 hnodup
      have hstep := functionStep_forgetIn id heir
      -- the records of the other functions are still the same
      have hsame : ∀ k ∈ fs, Returning (forgetIn id heir g f) id k ↔ Returning g id k := by
        intro k hk
        have hne : f ≠ k := fun heq => hf (heq ▸ hk)
        unfold Returning
        rw [returningBlocks_congr (hstep.bare g f), hstep.function, if_neg hne]
      refine (ih (listed_forgetIn h hP hcalls heir f) (fun i hi => .inl (hP i hi)) ?_ hfs).congr
        fun i => ?_
      · intro k info c hk hc
        rw [hstep.contains]
        rw [hstep.function] at hk
        split at hk
        · obtain ⟨info', hk', rfl⟩ := Option.map_eq_some_iff.1 hk
          exact hcalls hk' (List.mem_filter.1 hc).1
        · exact hcalls hk hc
      · constructor
        · rintro ((hi | ⟨hi, hr⟩) | ⟨hi, k, hk, hr⟩)
          · exact .inl hi
          · exact .inr ⟨hi, f, List.mem_cons_self .., hr⟩
          · exact .inr ⟨hi, k, List.mem_cons_of_mem _ hk, (hsame k hk).1 hr⟩
        · rintro (hi | ⟨hi, k, hk, hr⟩)
          · exact .inl (.inl hi)
          · rcases List.mem_cons.1 hk with rfl | hk
            · exact .inl (.inr ⟨hi, hr⟩)
            · exact .inr ⟨hi, k, hk, (hsame k hk).2 hr⟩

/-! ## Roles -/

/-- The block leads on to calls of its function that the removal keeps, or to the targets
of its terminator. -/
def LeadsOn (g : FlowGraph) (id : BlockId) (b : Block) (j : BlockId) : Prop :=
  if b.terminator.isReturn then
    ∃ f info, b.function = some f ∧ g.function? f = some info ∧
      ∃ c ∈ info.calls, (c.caller ≠ id ∧ c.returnTo ≠ id) ∧ c.returnTo = j
  else j ∈ b.terminator.targets

/-- No call and no function refers to the block any more. -/
structure Settled (cut : FlowGraph) (id : BlockId) (g : FlowGraph) : Prop where
  edges : Listed (fun i => i ≠ id ∨ ∃ f, Returning cut id f) g
  blocks : ∀ j, (g.bare? j).map (fun b => (b.terminator, b.function)) =
    (cut.bare? j).map fun b => (b.terminator, b.function)
  calls : ∀ f, (g.function? f).map FunctionInfo.calls = (cut.function? f).map fun info =>
    info.calls.filter fun c => c.caller != id && c.returnTo != id
  roles : ∀ {f info j}, g.function? f = some info → info.entry = some j ∨ info.exit = some j →
    j ≠ id ∧ cut.contains j = true
  first : g.first = cut.first
  last : g.last = cut.last

/-- The functions forget the block. -/
theorem settled_forget (h₀ : WellFormed g₀) {heir : Option BlockId} (h : Cut g₀ id [] heir g)
    (hheir : ∀ p, heir = some p → p ≠ id ∧ g₀.contains p = true) :
    Settled g id ((List.range g.functions.size).foldl (forgetIn id heir) g) := by
  have hlive : ∀ {f info c}, g.function? f = some info → c ∈ info.calls →
      g.contains c.returnTo = true := by
    intro f info c hf hc
    rw [h.contains]
    unfold function? at hf
    rw [h.functions] at hf
    exact h₀.returnTo_live hf hc
  obtain ⟨hbare, hfirst, hlast, hfun⟩ := foldl_forgetIn id heir g
  refine ⟨?_, fun j => by rw [hbare], fun f => by rw [hfun, Option.map_map]; rfl, ?_, hfirst, hlast⟩
  · refine (listed_foldl_forgetIn h.edges (fun _ hi => hi) hlive heir List.nodup_range).congr
      fun i => ?_
    constructor
    · rintro (hi | ⟨-, f, -, hr⟩)
      · exact .inl hi
      · exact .inr ⟨f, hr⟩
    · rintro (hi | ⟨f, hr⟩)
      · exact .inl hi
      · by_cases hi : i = id
        · obtain ⟨info, hf, -⟩ := hr.2
          unfold function? at hf
          obtain ⟨hlt, -⟩ := Array.getElem?_eq_some_iff.1 hf
          exact .inr ⟨hi, f, List.mem_range.2 hlt, hr⟩
        · exact .inl hi
  · intro f info j hf hj
    rw [hfun] at hf
    obtain ⟨info', hf', rfl⟩ := Option.map_eq_some_iff.1 hf
    have hrole : ∀ x, info'.entry = some x ∨ info'.exit = some x → g.contains x = true := by
      intro x hx
      rw [h.contains]
      unfold function? at hf'
      rw [h.functions] at hf'
      exact h₀.roles x (mem_designated.2 (.inr (.inr ⟨f, info', hf', hx.imp_right .inl⟩)))
    simp only [forgottenInfo] at hj
    rcases hj with hj | hj
    · split at hj
      · exact absurd hj (by simp)
      · rename_i hne
        exact ⟨fun heq => hne (heq ▸ hj), hrole j (.inl hj)⟩
    · split at hj
      · rw [h.contains]
        exact hheir j hj
      · rename_i hne
        exact ⟨fun heq => hne (heq ▸ hj), hrole j (.inr hj)⟩

/-- The graph in which the heir is an exit, if it returns. -/
def withHeir (g : FlowGraph) (function : Option FunctionId) (heir : BlockId) (returning : Bool) :
    FlowGraph :=
  let g := g.modifyBlock heir fun b => { b with isExit := returning }
  match returning, function with
  | false, some f => g.modifyFunction f fun info => { info with exit := none }
  | _, _ => g

theorem outcome_installHeir (hb : g.bare? p = some b) (function : Option FunctionId) :
    outcome (installHeir function p) g =
      (.ok (), g.withHeir function p b.terminator.isReturn) := by
  obtain ⟨b', hb', rfl⟩ := Option.map_eq_some_iff.1 hb
  unfold installHeir
  rw [outcome_bind_ok (outcome_block hb'), outcome_bind, outcome_modify]
  have hbare : b'.bare.terminator.isReturn = b'.terminator.isReturn := rfl
  rw [hbare]
  generalize b'.terminator.isReturn = returning
  cases returning <;> cases function <;> rfl

theorem Settled.withHeir {cut : FlowGraph} (h : Settled cut id g) (function : Option FunctionId)
    (heir : BlockId) (returning : Bool) :
    Settled cut id (g.withHeir function heir returning) := by
  have hblock : Settled cut id (g.modifyBlock heir fun b => { b with isExit := returning }) := by
    have hsame : ∀ j, ((g.modifyBlock heir fun b => { b with isExit := returning }).bare? j).map
        (fun b => (b.terminator, b.function)) =
          (g.bare? j).map fun b => (b.terminator, b.function) := by
      intro j
      rw [bare?_modifyBlock]
      split
      · unfold bare?
        cases g.block? j <;> rfl
      · rfl
    refine ⟨h.edges.transport (predecessors_modifyBlock
      (f := fun b => { b with isExit := returning }) (fun _ => rfl) g heir) fun i _ =>
        successors_congr_exits (hsame i) fun f => rfl, fun j => (hsame j).trans (h.blocks j),
      h.calls, h.roles, h.first, h.last⟩
  unfold FlowGraph.withHeir
  dsimp only
  split
  · refine ⟨hblock.edges.modifyFunction fun _ => rfl, hblock.blocks, fun k => ?_,
      fun {k info j} hk hj => ?_, hblock.first, hblock.last⟩
    · rw [← hblock.calls k, function?_modifyFunction]
      split
      · rw [Option.map_map]
        rfl
      · rfl
    · rw [function?_modifyFunction] at hk
      split at hk
      · obtain ⟨info', hk', rfl⟩ := Option.map_eq_some_iff.1 hk
        exact hblock.roles hk' (.inl (hj.resolve_right (by simp)))
      · exact hblock.roles hk hj
  · exact hblock

theorem Settled.mem_successors {cut : FlowGraph} (h : Settled cut id g) :
    j ∈ g.successors i ↔ ∃ b, cut.bare? i = some b ∧ LeadsOn cut id b j := by
  have hcalls : ∀ f, (∃ info, g.function? f = some info ∧ ∃ c ∈ info.calls, c.returnTo = j) ↔
      ∃ info, cut.function? f = some info ∧
        ∃ c ∈ info.calls, (c.caller ≠ id ∧ c.returnTo ≠ id) ∧ c.returnTo = j := by
    intro f
    have hf := h.calls f
    cases hcut : cut.function? f with
    | none =>
        rw [hcut, Option.map_none, Option.map_eq_none_iff] at hf
        simp [hf]
    | some info =>
        rw [hcut] at hf
        obtain ⟨info', hinfo, heq⟩ := Option.map_eq_some_iff.1 hf
        simp [hinfo, heq, and_assoc]
  have hb := h.blocks i
  rw [FlowGraph.mem_successors]
  cases hcut : cut.bare? i with
  | none =>
      rw [hcut, Option.map_none, Option.map_eq_none_iff] at hb
      simp [hb]
  | some b =>
      rw [hcut] at hb
      obtain ⟨b', hb', heq⟩ := Option.map_eq_some_iff.1 hb
      obtain ⟨hterm, hfun⟩ := Prod.mk.inj heq
      simp only [hb', Option.some.injEq, exists_eq_left', LeadsOn, hterm, hfun]
      split
      · simp only [exists_and_left, hcalls]
      · rfl

/-! ## The whole removal -/

/-- The graph that no longer begins or ends with the block. -/
def withEnds (g : FlowGraph) (id : BlockId) (preds : List BlockId) : FlowGraph :=
  { g with
    first := if g.first = some id then none else g.first
    last := if g.last = some id then (match preds with | [only] => some only | _ => none)
      else g.last }

theorem leadsOn_self_iff : LeadsOn g id b id ↔ id ∈ b.terminator.targets := by
  unfold LeadsOn
  split
  · rename_i hret
    constructor
    · rintro ⟨f, info, -, -, c, -, ⟨-, hne⟩, heq⟩
      exact absurd heq hne
    · intro hmem
      rw [Terminator.isReturn_of_mem_targets hmem] at hret
      exact absurd hret (by simp)
  · rfl

/-- The roles are those of blocks that stay. -/
theorem Settled.designated_live (h₀ : WellFormed g₀) {heir : Option BlockId} {cut : FlowGraph}
    (hcut : Cut g₀ id [] heir cut) (h : Settled cut id g) {preds : List BlockId}
    (hpreds : ∀ p ∈ preds, p ≠ id ∧ g₀.contains p = true)
    (hj : j ∈ (g.withEnds id preds).designated) : j ≠ id ∧ cut.contains j = true := by
  rw [hcut.contains]
  rcases mem_designated.1 hj with hrole | hrole | ⟨f, info, hf, hrole⟩
  · simp only [withEnds, h.first, hcut.first] at hrole
    split at hrole
    · exact absurd hrole (by simp)
    · rename_i hne
      exact ⟨fun heq => hne (heq ▸ hrole), h₀.roles j (mem_designated.2 (.inl hrole))⟩
  · simp only [withEnds, h.last, hcut.last] at hrole
    split at hrole
    · split at hrole
      · cases hrole
        exact hpreds j (List.mem_singleton_self j)
      · exact absurd hrole (by simp)
    · rename_i hne
      exact ⟨fun heq => hne (heq ▸ hrole), h₀.roles j (mem_designated.2 (.inr (.inl hrole)))⟩
  · have hf' : g.function? f = some info := hf
    rcases hrole with hrole | hrole | ⟨c, hc, hrole⟩
    · exact hcut.contains j ▸ h.roles hf' (.inl hrole)
    · exact hcut.contains j ▸ h.roles hf' (.inr hrole)
    · have hcalls := h.calls f
      rw [hf', Option.map_some] at hcalls
      obtain ⟨info', hinfo, heq⟩ := Option.map_eq_some_iff.1 hcalls.symm
      rw [← heq, List.mem_filter] at hc
      obtain ⟨hc, hkept⟩ := hc
      simp only [Bool.and_eq_true, bne_iff_ne] at hkept
      unfold function? at hinfo
      rw [hcut.functions] at hinfo
      refine ⟨?_, h₀.roles j (mem_designated.2 (.inr (.inr ⟨f, info', hinfo, .inr (.inr
        ⟨c, hc, hrole⟩)⟩)))⟩
      rintro rfl
      rcases hrole with hrole | hrole
      · exact hkept.1 hrole
      · exact hkept.2 hrole

/-- The block is dropped last.  What can be wrong then are the edges alone. -/
theorem Settled.wellFormed_iff (h₀ : WellFormed g₀) {heir : Option BlockId} {cut : FlowGraph}
    (hcut : Cut g₀ id [] heir cut) (h : Settled cut id g) {preds : List BlockId}
    (hpreds : ∀ p ∈ preds, p ≠ id ∧ g₀.contains p = true) :
    WellFormed ((g.withEnds id preds).dropBlock id) ↔
      (∀ i b, i ≠ id → cut.bare? i = some b → id ∉ b.terminator.targets) ∧
        ((∃ f, Returning cut id f) →
          ∀ b, cut.bare? id = some b → ∀ j, j ≠ id → ¬ LeadsOn cut id b j) := by
  have hlisted : Listed (fun i => i ≠ id ∨ ∃ f, Returning cut id f) (g.withEnds id preds) :=
    h.edges.transport (fun _ => rfl) fun _ _ => successors_congr rfl rfl
  have hsucc : ∀ i j, j ∈ (g.withEnds id preds).successors i ↔
      ∃ b, cut.bare? i = some b ∧ LeadsOn cut id b j := fun i j => h.mem_successors
  have hbare : ∀ {j b}, ((g.withEnds id preds).dropBlock id).bare? j = some b →
      ∃ b', cut.bare? j = some b' ∧ b'.terminator = b.terminator ∧ b'.function = b.function := by
    intro j b hj
    rw [bare?_dropBlock] at hj
    split at hj
    · exact absurd hj (by simp)
    · have hb := h.blocks j
      rw [show g.bare? j = some b from hj] at hb
      obtain ⟨b', hb', heq⟩ := Option.map_eq_some_iff.1 hb.symm
      exact ⟨b', hb', (Prod.mk.inj heq).1, (Prod.mk.inj heq).2⟩
  have hrest : WellFormed ((g.withEnds id preds).dropBlock id) ↔
      Listed (fun _ => True) ((g.withEnds id preds).dropBlock id) := by
    refine ⟨fun hwf => hwf.edges, fun hedges => ⟨hedges, fun {j b} hb => ?_, fun j hj => ?_⟩⟩
    · obtain ⟨b', hb', hterm, hfun⟩ := hbare hb
      rw [← hterm, ← hfun]
      exact hcut.exits hb'
    · obtain ⟨hne, hlive⟩ := h.designated_live h₀ hcut hpreds hj
      have hb := congrArg Option.isSome (h.blocks j)
      rw [Option.isSome_map, Option.isSome_map, ← contains_eq_isSome_bare?,
        ← contains_eq_isSome_bare?, hlive] at hb
      rw [contains_eq_isSome_bare?, bare?_dropBlock, if_neg (Ne.symm hne),
        ← contains_eq_isSome_bare?]
      exact hb
  rw [hrest, listed_dropBlock_iff hlisted fun _ hi => .inl hi]
  simp only [hsucc, ne_eq, not_true_eq_false, false_or, not_exists, not_and]
  constructor
  · rintro ⟨hto, hfrom⟩
    exact ⟨fun i b hi hb hmem => hto i hi b hb (leadsOn_self_iff.2 hmem),
      fun hr b hb j hj => hfrom hr j hj b hb⟩
  · rintro ⟨hto, hfrom⟩
    exact ⟨fun i hi b hb hlead => hto i b hi hb (leadsOn_self_iff.1 hlead),
      fun hr j hj b hb => hfrom hr b hb j hj⟩

/-- The block is entered again, and leads on. -/
theorem returnsOn_iff {cut : FlowGraph} (hgone : cut.bare? id = some gone.bare)
    (hfun : cut.functions = g.functions) :
    ReturnsOn g id gone ↔
      (∃ f, Returning cut id f) ∧ ∃ j, j ≠ id ∧ LeadsOn cut id gone.bare j := by
  have hfun' : ∀ f, cut.function? f = g.function? f := by
    intro f
    unfold function?
    rw [hfun]
  unfold ReturnsOn Returning LeadsOn
  simp only [mem_returningBlocks_bare, hgone, hfun', Option.some.injEq, exists_eq_left']
  constructor
  · rintro ⟨hret, f, info, hf, hinfo, hmentions, c, hc, hkept⟩
    refine ⟨⟨f, ⟨hf, hret⟩, info, hinfo, hmentions⟩, c.returnTo, hkept.2, ?_⟩
    rw [if_pos (show gone.bare.terminator.isReturn = true from hret)]
    exact ⟨f, info, hf, hinfo, c, hc, hkept, rfl⟩
  · rintro ⟨⟨f, ⟨hf, hret⟩, info, hinfo, hmentions⟩, j, -, hlead⟩
    rw [if_pos hret] at hlead
    obtain ⟨f', info', hf', hinfo', c, hc, hkept, -⟩ := hlead
    obtain rfl : f = f' := Option.some.inj (hf.symm.trans hf')
    obtain rfl : info = info' := Option.some.inj (hinfo.symm.trans hinfo')
    exact ⟨hret, f, info, hf, hinfo, hmentions, c, hc, hkept⟩

/-- The heir leads to the block that goes. -/
theorem inheritsLoop_iff (h : WellFormed g) (hb : g.block? id = some gone)
    {heir : Option BlockId} {cut : FlowGraph} (hcut : Cut g id [] heir cut)
    (hheir : Inherited g id gone (others id gone) heir cut) :
    InheritsLoop g id gone ↔
      ∃ i b, i ≠ id ∧ cut.bare? i = some b ∧ id ∈ b.terminator.targets := by
  constructor
  · rintro ⟨hexit, hloop, p, b, hp, hbare, hjump, howner⟩
    have hedge := (h.target_live hbare (t := id) (by simp [hjump, Terminator.targets])).1
    have hother := (mem_others h hb).2 ⟨hp, hedge⟩
    rcases hheir with ⟨-, hno⟩ | ⟨q, b', -, honly, -, -, hcutBare⟩
    · exact absurd ⟨hexit, hjump, howner⟩ (hno p hother b hbare)
    · rw [honly, List.mem_singleton] at hother
      subst hother
      exact ⟨p, _, hp, hcutBare, (mem_targets_heirTerminator hp).2 hloop⟩
  · rintro ⟨i, b, hi, hbare, hmem⟩
    have hisHeir := (hcut.targets hi hbare hmem).resolve_left (by simp)
    rcases hheir with ⟨hnone, -⟩ | ⟨p, b', hsome, -, hbp, hheir, hcutBare⟩
    · rw [hnone] at hisHeir
      exact absurd hisHeir (by simp)
    · obtain rfl : p = i := Option.some.inj (hsome.symm.trans hisHeir)
      rw [hcutBare, Option.some.injEq] at hbare
      subst hbare
      exact ⟨hheir.1, (mem_targets_heirTerminator hi).1 hmem, p, b', hi, hbp, hheir.2⟩

/-- The heir of an exit takes its role. -/
def handOn (gone : Block) (g : FlowGraph) : Option BlockId → FlowGraph
  | none => g
  | some p => g.withHeir gone.function p (heirTerminator gone p).isReturn

theorem Settled.handOn {cut : FlowGraph} (h : Settled cut id g) (gone : Block)
    (heir : Option BlockId) : Settled cut id (handOn gone g heir) := by
  cases heir with
  | none => exact h
  | some p => exact h.withHeir gone.function p _

/-- The steps of a removal after the edges were cut. -/
theorem outcome_removeNode_cut (hb : g.block? id = some gone)
    (hexit : gone.isExit = true → (others id gone).length ≤ 1) {heir : Option BlockId}
    {cut : FlowGraph} (hsever : outcome ((others id gone).foldlM (severPredecessor id gone) none)
      (g.detach id) = (.ok heir, cut))
    (hheir : ∀ p, heir = some p → ∃ b, cut.bare? p = some b ∧
      b.terminator.isReturn = (heirTerminator gone p).isReturn) :
    outcome (removeNode id) g = (.ok (),
      ((handOn gone ((List.range cut.functions.size).foldl (forgetIn id heir) cut)
        heir).withEnds id (others id gone)).dropBlock id) := by
  have hunambiguous : (gone.isExit && decide ((others id gone).length > 1)) = false := by
    rw [Bool.and_eq_false_imp, decide_eq_false_iff_not, Nat.not_lt]
    exact hexit
  unfold removeNode
  rw [outcome_bind_ok (outcome_block hb)]
  unfold others at *
  simp only [hunambiguous, Bool.false_eq_true, if_false]
  rw [outcome_bind, outcome_modify]
  dsimp only
  rw [outcome_bind_ok hsever, outcome_bind, outcome_modify]
  cases heir with
  | none => rfl
  | some p =>
      obtain ⟨b, hp, hterm⟩ := hheir p rfl
      have hp' : ((List.range cut.functions.size).foldl (forgetIn id (some p)) cut).bare? p =
          some b := by
        rw [(foldl_forgetIn id (some p) cut).1, hp]
      dsimp only
      rw [outcome_bind_ok (outcome_installHeir hp' gone.function), hterm]
      rfl

/-- The graph that a removal leaves, from the one in which the edges were cut. -/
def removed (id : BlockId) (gone : Block) (heir : Option BlockId) (cut : FlowGraph) : FlowGraph :=
  ((handOn gone ((List.range cut.functions.size).foldl (forgetIn id heir) cut)
    heir).withEnds id (others id gone)).dropBlock id

/-- **What a removal does**, in any graph.  An exit with several predecessors stays; else the
edges are cut, and if that succeeds the block goes. -/
theorem removeNode_run (hb : g.block? id = some gone) :
    (gone.isExit = true ∧ 1 < (others id gone).length ∧
      outcome (removeNode id) g = (.error (.ambiguousExit gone.name), g)) ∨
    (gone.isExit = true → (others id gone).length ≤ 1) ∧ ∃ r cut,
      outcome ((others id gone).foldlM (severPredecessor id gone) none) (g.detach id) = (r, cut) ∧
      outcome (removeNode id) g = match r with
        | .error e => (.error e, cut)
        | .ok heir => (.ok (), removed id gone heir cut) := by
  by_cases hexit : gone.isExit = true → (others id gone).length ≤ 1
  case neg =>
    obtain ⟨hisExit, hmany⟩ := Classical.not_imp.1 hexit
    rw [Nat.not_le] at hmany
    refine .inl ⟨hisExit, hmany, ?_⟩
    unfold removeNode
    rw [outcome_bind_ok (outcome_block hb)]
    unfold others at hmany
    simp only [hisExit, hmany, decide_true, Bool.and_true, if_true]
    rfl
  refine .inr ⟨hexit, ?_⟩
  rcases hsever : outcome ((others id gone).foldlM (severPredecessor id gone) none)
    (g.detach id) with ⟨r, cut⟩
  refine ⟨r, cut, rfl, ?_⟩
  cases r with
  | ok heir => exact outcome_removeNode_cut hb hexit hsever (severEach_heir hexit hsever).2
  | error e =>
      have hunambiguous : (gone.isExit && decide ((others id gone).length > 1)) = false := by
        rw [Bool.and_eq_false_imp, decide_eq_false_iff_not, Nat.not_lt]
        exact hexit
      unfold removeNode
      rw [outcome_bind_ok (outcome_block hb)]
      unfold others at *
      simp only [hunambiguous, Bool.false_eq_true, if_false]
      rw [outcome_bind, outcome_modify]
      dsimp only
      exact outcome_bind_error hsever

/-- Who is an exit afterwards. -/
theorem bare?_handOn (gone : Block) (g : FlowGraph) (heir : Option BlockId) (j : BlockId) :
    (handOn gone g heir).bare? j = (g.bare? j).map fun b =>
      if heir = some j then { b with isExit := (heirTerminator gone j).isReturn } else b := by
  cases heir with
  | none => simp [handOn]
  | some p =>
      have hblock : (handOn gone g (some p)).bare? j = (g.modifyBlock p fun b =>
          { b with isExit := (heirTerminator gone p).isReturn }).bare? j := by
        unfold handOn withHeir
        dsimp only
        split <;> rfl
      rw [hblock, bare?_modifyBlock]
      by_cases heq : p = j
      · subst heq
        rw [if_pos rfl]
        unfold bare?
        cases g.block? p <;> simp [Block.bare]
      · simp [heq]

/-- What a removal leaves is a part of what was there.  New is only the heir of an exit,
and it is an exit only if it returns. -/
structure Shrunk (g g' : FlowGraph) : Prop where
  blocks : ∀ {j b'}, g'.bare? j = some b' → ∃ b, g.bare? j = some b ∧ b'.function = b.function ∧
    (b'.isExit = true → b'.terminator.isReturn = true ∨
      b.isExit = true ∧ b'.terminator.targets ⊆ b.terminator.targets)
  calls : ∀ {f info'}, g'.function? f = some info' →
    ∃ info, g.function? f = some info ∧ info'.calls ⊆ info.calls

theorem Shrunk.refl (g : FlowGraph) : Shrunk g g :=
  ⟨fun {_ b} hb => ⟨b, hb, rfl, fun hexit => .inr ⟨hexit, List.Subset.refl _⟩⟩,
    fun {_ info} hf => ⟨info, hf, List.Subset.refl _⟩⟩

theorem Cut.shrunk {heir : Option BlockId} {cut : FlowGraph} (h : Cut g id [] heir cut)
    (hheir : ∀ p, heir = some p →
      ∃ b, cut.bare? p = some b ∧ b.terminator = heirTerminator gone p)
    (hbare : ∀ j, g'.bare? j = cut.bare? j) (hsettled : Settled cut id (handOn gone g' heir))
    (preds : List BlockId) :
    Shrunk g (((handOn gone g' heir).withEnds id preds).dropBlock id) := by
  constructor
  · intro j b' hb'
    rw [bare?_dropBlock] at hb'
    split at hb'
    · exact absurd hb' (by simp)
    have hj : (handOn gone g' heir).bare? j = some b' := hb'
    rw [bare?_handOn, hbare] at hj
    obtain ⟨c, hc, rfl⟩ := Option.map_eq_some_iff.1 hj
    obtain ⟨b, hb, hkept⟩ := h.blocks hc
    refine ⟨b, hb, ?_, fun hexit => ?_⟩
    · split <;> exact hkept.function
    · split at hexit
      · rename_i hsome
        obtain ⟨c', hc', hterm⟩ := hheir j hsome
        obtain rfl : c = c' := Option.some.inj (hc.symm.trans hc')
        rw [if_pos hsome]
        exact .inl (hterm ▸ hexit)
      · rename_i hne
        rw [if_neg hne]
        exact .inr ⟨hkept.isExit ▸ hexit, hkept.targets hne⟩
  · intro f info' hf
    have hcalls := hsettled.calls f
    rw [show (handOn gone g' heir).function? f = some info' from hf] at hcalls
    obtain ⟨info, hinfo, heq⟩ := Option.map_eq_some_iff.1 hcalls.symm
    unfold function? at hinfo
    rw [h.functions] at hinfo
    exact ⟨info, hinfo, fun c hc => (List.mem_filter.1 (heq ▸ hc)).1⟩

/-- **A removal** from a well-formed graph fails if the block is an exit with several
predecessors, and then changes nothing.  Else the block is gone, and the graph is
well-formed but for the two cases. -/
theorem removeNode_cases (h : WellFormed g) (hb : g.block? id = some gone) :
    (gone.isExit = true ∧ 1 < (others id gone).length ∧
      outcome (removeNode id) g = (.error (.ambiguousExit gone.name), g)) ∨
    ∃ g', outcome (removeNode id) g = (.ok (), g') ∧ g'.contains id = false ∧ Shrunk g g' ∧
      (WellFormed g' ↔ ¬ InheritsLoop g id gone ∧ ¬ ReturnsOn g id gone) := by
  have hgone : g.bare? id = some gone.bare := bare?_of_block? hb
  rcases removeNode_run hb with hambiguous | ⟨hexit, r, cut, hsever, hrun⟩
  · exact .inl hambiguous
  have hothers := others_live h hb
  obtain ⟨heir, cut, hsever', hcut, hheir⟩ := Cut.severEach h hgone hexit (cut_detach h hb) hothers
  obtain ⟨rfl, rfl⟩ := Prod.mk.inj (hsever.symm.trans hsever')
  have hheirOf : ∀ p, heir = some p → p ∈ others id gone ∧
      ∃ b, cut.bare? p = some b ∧ b.terminator = heirTerminator gone p := by
    intro p hp
    rcases hheir with ⟨hnone, -⟩ | ⟨q, b, hsome, honly, -, -, hbare⟩
    · exact absurd (hnone.symm.trans hp) (by simp)
    · obtain rfl : q = p := Option.some.inj (hsome.symm.trans hp)
      exact ⟨honly ▸ List.mem_singleton_self q, _, hbare, rfl⟩
  have hsettled := (settled_forget h hcut fun p hp => hothers p (hheirOf p hp).1).handOn gone heir
  dsimp only [removed] at hrun
  refine .inr ⟨_, hrun, ?_, hcut.shrunk (fun p hp => (hheirOf p hp).2) ?_ hsettled _, ?_⟩
  · rw [contains_eq_isSome_bare?, bare?_dropBlock, if_pos rfl]
    rfl
  · exact (foldl_forgetIn id heir cut).1
  · rw [hsettled.wellFormed_iff h hcut hothers, inheritsLoop_iff h hb hcut hheir,
      returnsOn_iff (hcut.gone.trans hgone) hcut.functions]
    refine and_congr ?_ ?_
    · simp only [not_exists, not_and]
    · rw [hcut.gone, hgone]
      simp only [Option.some.injEq, forall_eq', not_and, not_exists]

/-- **A block that nothing refers to** is removed, and nothing else changes. -/
theorem outcome_removeNode (h : WellFormed g) (hunref : Unreferred g id)
    (hb : g.block? id = some gone) (hplain : gone.terminator.isReturn = false)
    (hlast : g.last ≠ some id) :
    ∃ g', outcome (removeNode id) g = (.ok (), g') ∧ WellFormed g' ∧
      (∀ j, g'.bare? j = if id = j then none else g.bare? j) ∧
      g'.first = g.first ∧ g'.last = g.last ∧
      ∀ k, g'.function? k = (g.function? k).map (forgottenInfo id none) := by
  have hothers : others id gone = [] := by
    rw [List.eq_nil_iff_forall_not_mem]
    exact fun p hp => hunref.edges p ((mem_others h hb).1 hp).2
  have hsever : outcome ((others id gone).foldlM (severPredecessor id gone) none)
      (g.detach id) = (.ok none, g.detach id) := by
    rw [hothers]
    rfl
  have hrun := outcome_removeNode_cut hb (by simp [hothers]) hsever (by simp)
  have hsame := sameButLists_detach g id
  obtain ⟨hbare, hfirst, hend, hfun⟩ := foldl_forgetIn id none (g.detach id)
  refine ⟨_, hrun, ?_, fun j => ?_, ?_, ?_, fun k => ?_⟩
  · rcases removeNode_cases h hb with ⟨-, hmany, -⟩ | ⟨g', hok, -, -, hiff⟩
    · rw [hothers] at hmany
      exact absurd hmany (by simp)
    · obtain rfl := congrArg Prod.snd (hok.symm.trans hrun)
      refine hiff.2 ⟨?_, ?_⟩
      · rintro ⟨-, -, p, b, -, hp, hjump, -⟩
        exact hunref.edges p (h.target_live hp (by simp [hjump, Terminator.targets])).1
      · rintro ⟨hret, -⟩
        rw [hplain] at hret
        exact absurd hret (by simp)
  · rw [bare?_dropBlock]
    split
    · rfl
    · exact (hbare j).trans (hsame.bare j)
  · have hkept : ((List.range (g.detach id).functions.size).foldl (forgetIn id none)
        (g.detach id)).first ≠ some id := by
      rw [hfirst, hsame.first]
      exact hunref.first
    exact (if_neg hkept).trans (hfirst.trans hsame.first)
  · have hkept : ((List.range (g.detach id).functions.size).foldl (forgetIn id none)
        (g.detach id)).last ≠ some id := by
      rw [hend, hsame.last]
      exact hlast
    exact (if_neg hkept).trans (hend.trans hsame.last)
  · refine (hfun k).trans ?_
    rw [function?, hsame.functions, ← function?]

/-- Nothing refers to a block that is gone. -/
theorem WellFormed.unlinked (h : WellFormed g) (hgone : g.contains id = false) (i : BlockId) :
    id ∉ g.successors i ∧ id ∉ g.predecessors i := by
  constructor
  · intro hmem
    rw [h.edges.contains trivial hmem] at hgone
    exact absurd hgone (by simp)
  · intro hmem
    obtain ⟨b, hb, -⟩ := mem_successors.1 ((h.edges id i).1 hmem).2
    rw [contains_eq_isSome_bare?, hb] at hgone
    exact absurd hgone (by simp)

/-! ## Removals one after the other -/

/-- The removal of the block is none of those that break a graph. -/
def Clean (g : FlowGraph) (id : BlockId) : Prop :=
  ∀ gone, g.block? id = some gone → ¬ InheritsLoop g id gone ∧ ¬ ReturnsOn g id gone

/-- Of removals one after the other, none that succeeds breaks the graph. -/
def CleanRun : FlowGraph → List BlockId → Prop
  | _, [] => True
  | g, id :: ids => (((removeNode id).runOn g).1 = .ok () → Clean g id) ∧
      CleanRun ((removeNode id).runOn g).2 ids

theorem outcome_removeNode_none (h : g.block? id = none) :
    outcome (removeNode id) g = (.error (.unknownNode (BlockId.text id)), g) :=
  outcome_bind_error (outcome_block_none h)

/-- **One removal**, whether it succeeds or fails. -/
theorem removeNode_step (h : WellFormed g) (id : BlockId) :
    Shrunk g (outcome (removeNode id) g).2 ∧
      (((outcome (removeNode id) g).1 = .ok () → Clean g id) →
        WellFormed (outcome (removeNode id) g).2) := by
  cases hb : g.block? id with
  | none =>
      rw [outcome_removeNode_none hb]
      exact ⟨.refl g, fun _ => h⟩
  | some gone =>
      rcases removeNode_cases h hb with ⟨-, -, hfail⟩ | ⟨g', hok, -, hshrunk, hiff⟩
      · rw [hfail]
        exact ⟨.refl g, fun _ => h⟩
      · rw [hok]
        exact ⟨hshrunk, fun hclean => hiff.2 (hclean rfl gone hb)⟩

/-- No exit leads to itself, and no function calls itself. -/
structure Tame (g : FlowGraph) : Prop where
  exits : ∀ {j b}, g.bare? j = some b → b.isExit = true → j ∉ b.terminator.targets
  calls : ∀ {f info c j b}, g.function? f = some info → c ∈ info.calls →
    c.caller = j ∨ c.returnTo = j → g.bare? j = some b → b.function ≠ some f

theorem Tame.clean (h : Tame g) (hgone : g.bare? id = some gone.bare) :
    ¬ InheritsLoop g id gone ∧ ¬ ReturnsOn g id gone := by
  constructor
  · rintro ⟨hexit, hloop, -⟩
    exact h.exits hgone hexit hloop
  · rintro ⟨-, f, info, hf, hinfo, ⟨c, hc, hend⟩, -⟩
    exact h.calls hinfo hc hend hgone hf

/-- Nothing new comes in with a removal. -/
theorem Tame.shrunk (h : Tame g) (hshrunk : Shrunk g g') : Tame g' := by
  constructor
  · intro j b' hb' hexit hmem
    obtain ⟨b, hb, -, hexits⟩ := hshrunk.blocks hb'
    rcases hexits hexit with hret | ⟨hwas, hsub⟩
    · rw [Terminator.isReturn_of_mem_targets hmem] at hret
      exact absurd hret (by simp)
    · exact h.exits hb hwas (hsub hmem)
  · intro f info' c j b' hf hc hend hb'
    obtain ⟨info, hinfo, hsub⟩ := hshrunk.calls hf
    obtain ⟨b, hb, hfun, -⟩ := hshrunk.blocks hb'
    rw [hfun]
    exact h.calls hinfo (hsub hc) hend hb

/-- **Removals from a tame graph** are all clean. -/
theorem Tame.cleanRun (h : Tame g) (hwf : WellFormed g) (ids : List BlockId) : CleanRun g ids := by
  induction ids generalizing g with
  | nil => trivial
  | cons id ids ih =>
      have hclean : Clean g id := fun gone hb => h.clean (bare?_of_block? hb)
      obtain ⟨hshrunk, hkeep⟩ := removeNode_step hwf id
      exact ⟨fun _ => hclean, ih (h.shrunk hshrunk) (hkeep fun _ => hclean)⟩

end FlowGraph
end FlowVerifier
