import FlowVerifier.Proofs.Flow.Redirect

/-!
# Appending a block to its predecessor

`mergeInto` appends a block to the only block that leads to it.  On a
well-formed graph it succeeds (`outcome_mergeInto`): the predecessor becomes
`merged`, the other block is gone, and nothing else changes.
-/

namespace FlowVerifier
namespace FlowGraph

variable {g g' : FlowGraph} {into gone id i j : BlockId}

/-- The block with another one appended. -/
def merged (b tail : Block) : Block :=
  { b with
    body := b.body ++ tail.body
    terminator := tail.terminator
    isExit := b.isExit || tail.isExit }

/-- The block `gone` can be appended to the block `into`: nothing else leads to it. -/
structure Mergeable (g : FlowGraph) (into gone : BlockId) (b tail : Block) : Prop where
  head : g.block? into = some b
  found : g.block? gone = some tail
  distinct : into ≠ gone
  jumps : b.terminator = .jump gone
  routine : b.function = tail.function
  only : ∀ i, gone ∈ g.successors i → i = into
  first : g.first ≠ some gone
  entry : ∀ {f info}, g.function? f = some info → info.entry ≠ some gone
  calls : ∀ {f info c}, g.function? f = some info → c ∈ info.calls → c.returnTo ≠ gone

/-- The graph after the block `gone` has lost its edges. -/
def unhooked (g : FlowGraph) (into gone : BlockId) : FlowGraph :=
  (((g.withTerminator into .finish).detach gone).modifyBlock gone fun b =>
    { b with terminator := .finish })

/-- The graph after the roles of `gone` have gone to `into`. -/
def handedOver (g : FlowGraph) (into gone : BlockId) : FlowGraph :=
  { g with
    functions := g.functions.map (handOver gone into)
    last := if g.last = some gone then some into else g.last }

/-- The graph after `into` has taken over the body of `gone`. -/
def extended (g : FlowGraph) (into : BlockId) (tail : Block) : FlowGraph :=
  g.modifyBlock into fun b =>
    { b with body := b.body ++ tail.body, isExit := b.isExit || tail.isExit }

/-- The graph before `into` gets its new terminator. -/
def prepared (g : FlowGraph) (into gone : BlockId) (tail : Block) : FlowGraph :=
  ((g.unhooked into gone).handedOver into gone).extended into tail

/-- The graph after a merge. -/
def mergeResult (g : FlowGraph) (into gone : BlockId) (tail : Block) : FlowGraph :=
  ((g.prepared into gone tail).withTerminator into tail.terminator).dropBlock gone

/-! ## One step after the other -/

theorem bare?_unhooked (g : FlowGraph) (into gone id : BlockId) :
    (g.unhooked into gone).bare? id =
      if gone = id ∨ into = id then (g.bare? id).map fun b => { b with terminator := .finish }
      else g.bare? id := by
  have hdetach : ((g.withTerminator into .finish).detach gone).bare? id =
      if into = id then (g.bare? id).map fun b => { b with terminator := .finish }
      else g.bare? id :=
    ((sameButLists_detach _ gone).bare id).trans (bare?_withTerminator ..)
  unfold unhooked
  rw [bare?_modifyBlock]
  by_cases hg : gone = id
  · rw [if_pos hg, if_pos (.inl hg)]
    have hmap : (((g.withTerminator into .finish).detach gone).block? id).map
        (fun b => ({ b with terminator := .finish } : Block).bare) =
        (((g.withTerminator into .finish).detach gone).bare? id).map
          fun b => { b with terminator := .finish } := by
      rw [bare?, Option.map_map]
      rfl
    rw [hmap, hdetach]
    split
    · rw [Option.map_map]
      rfl
    · rfl
  · rw [if_neg hg, hdetach]
    simp only [hg, false_or]

theorem listed_unhooked (h : WellFormed g) (hinto : g.contains into = true) :
    Listed (· ≠ gone) (g.unhooked into gone) := by
  obtain ⟨b, hb⟩ := contains_iff.1 hinto
  have hbare : g.bare? into = some b.bare := bare?_of_block? hb
  have hwf : WellFormed (g.withTerminator into .finish) := by
    refine h.withTerminator hbare (soundExit_finish _) fun t ht => ?_
    simp [Terminator.targets] at ht
  have hdetach : Listed (· ≠ gone) ((g.withTerminator into .finish).detach gone) :=
    (listed_detach hwf.edges gone).congr fun i => by simp
  unfold unhooked
  refine hdetach.transport (fun j => predecessors_modifyBlock ?_ _ gone j) fun i hne => ?_
  · exact fun _ => rfl
  · refine successors_congr ?_ (functions_modifyBlock ..)
    rw [bare?_modifyBlock, if_neg (Ne.symm hne)]

theorem function?_handedOver (g : FlowGraph) (into gone : BlockId) (k : FunctionId) :
    (g.handedOver into gone).function? k = (g.function? k).map (handOver gone into) := by
  unfold handedOver function?
  rw [Array.getElem?_map]

/-- A function returns to where it did before. -/
theorem returnSites_handOver (into gone : BlockId) (info : FunctionInfo) :
    (handOver gone into info).returnSites = info.returnSites := by
  unfold FunctionInfo.returnSites handOver
  rw [List.map_map]
  congr 3
  funext c
  by_cases h : c.caller = gone <;> simp [h]

theorem listed_handedOver {P : BlockId → Prop} (h : Listed P g) (into gone : BlockId) :
    Listed P (g.handedOver into gone) := by
  refine h.transport (fun _ => rfl) fun i _ => successors_congr_sites rfl fun k => ?_
  unfold returnSitesOf
  cases k with
  | none => rfl
  | some k =>
      simp only [Option.bind_some, function?_handedOver]
      cases g.function? k with
      | none => rfl
      | some info => exact returnSites_handOver into gone info

theorem bare?_extended (g : FlowGraph) (into id : BlockId) (tail : Block) :
    (g.extended into tail).bare? id =
      if into = id then (g.bare? id).map fun b =>
        { b with body := b.body ++ tail.body, isExit := b.isExit || tail.isExit }
      else g.bare? id := by
  unfold extended
  rw [bare?_modifyBlock]
  split
  · rw [bare?, Option.map_map]
    rfl
  · rfl

theorem listed_extended {P : BlockId → Prop} (h : Listed P g) (into : BlockId) (tail : Block) :
    Listed P (g.extended into tail) := by
  unfold extended
  refine h.transport (fun j => predecessors_modifyBlock ?_ g into j) fun i _ => ?_
  · exact fun _ => rfl
  · refine successors_congr_exits ?_ fun _ => rfl
    rw [bare?_modifyBlock]
    split
    · rw [bare?, Option.map_map, Option.map_map]
      rfl
    · rfl

theorem bare?_handedOver (g : FlowGraph) (into gone id : BlockId) :
    (g.handedOver into gone).bare? id = g.bare? id := rfl

/-! ## The whole merge -/

theorem bare?_prepared (g : FlowGraph) (into gone id : BlockId) (tail : Block) :
    (g.prepared into gone tail).bare? id =
      if into = id then ((g.unhooked into gone).bare? id).map fun b =>
        { b with body := b.body ++ tail.body, isExit := b.isExit || tail.isExit }
      else (g.unhooked into gone).bare? id := by
  rw [prepared, bare?_extended, bare?_handedOver]

theorem function?_prepared (g : FlowGraph) (into gone : BlockId) (tail : Block)
    (k : FunctionId) :
    (g.prepared into gone tail).function? k = (g.function? k).map (handOver gone into) := by
  have hun : (g.unhooked into gone).functions = g.functions := by
    rw [unhooked, functions_modifyBlock, (sameButLists_detach _ gone).functions,
      functions_withTerminator]
  rw [prepared, extended, function?, functions_modifyBlock, ← function?, function?_handedOver,
    function?, hun, ← function?]

theorem contains_prepared (g : FlowGraph) (into gone id : BlockId) (tail : Block) :
    (g.prepared into gone tail).contains id = g.contains id := by
  rw [contains_eq_isSome_bare?, contains_eq_isSome_bare?, bare?_prepared, bare?_unhooked]
  split <;> split <;> simp

theorem bare?_mergeResult {b tail : Block} (hm : Mergeable g into gone b tail) (id : BlockId) :
    (g.mergeResult into gone tail).bare? id =
      if gone = id then none
      else if into = id then some (merged b tail).bare else g.bare? id := by
  have hhead : g.bare? into = some b.bare := bare?_of_block? hm.head
  rw [mergeResult, bare?_dropBlock]
  by_cases hg : gone = id
  · rw [if_pos hg, if_pos hg]
  · rw [if_neg hg, if_neg hg, bare?_withTerminator, bare?_prepared, bare?_unhooked]
    by_cases hi : into = id
    · subst hi
      simp only [if_true, or_true, hhead, Option.map_some]
      rfl
    · simp [hg, hi]

theorem first_mergeResult (g : FlowGraph) (into gone : BlockId) (tail : Block) :
    (g.mergeResult into gone tail).first = g.first := by
  have hun : (g.unhooked into gone).first = g.first := by
    rw [unhooked, first_modifyBlock, (sameButLists_detach _ gone).first, first_withTerminator]
  rw [mergeResult, first_dropBlock, first_withTerminator, prepared, extended, first_modifyBlock,
    handedOver, hun]

theorem last_mergeResult (g : FlowGraph) (into gone : BlockId) (tail : Block) :
    (g.mergeResult into gone tail).last = if g.last = some gone then some into else g.last := by
  have hun : (g.unhooked into gone).last = g.last := by
    rw [unhooked, last_modifyBlock, (sameButLists_detach _ gone).last, last_withTerminator]
  rw [mergeResult, last_dropBlock, last_withTerminator, prepared, extended, last_modifyBlock,
    handedOver, hun]

theorem function?_mergeResult (g : FlowGraph) (into gone : BlockId) (tail : Block)
    (k : FunctionId) :
    (g.mergeResult into gone tail).function? k = (g.function? k).map (handOver gone into) := by
  rw [mergeResult, function?, functions_dropBlock, functions_withTerminator, ← function?,
    function?_prepared]

/-- Where the block `gone` leads. -/
theorem Mergeable.targets_live {b tail : Block} (hm : Mergeable g into gone b tail)
    (h : WellFormed g) {t : BlockId} (ht : t ∈ tail.terminator.targets) :
    g.contains t = true ∧ t ≠ gone := by
  have hbare : g.bare? gone = some tail.bare := bare?_of_block? hm.found
  obtain ⟨hedge, hlive⟩ := h.target_live hbare (t := t) ht
  refine ⟨hlive, ?_⟩
  rintro rfl
  exact hm.distinct (hm.only t hedge).symm

theorem returnTo_handOver (c : Call) :
    (if c.caller = gone then { c with caller := into } else c).returnTo = c.returnTo := by
  split <;> rfl

/-- Calls still return to blocks that exist, other than `gone`. -/
theorem Mergeable.returnTo_live {b tail : Block} (hm : Mergeable g into gone b tail)
    (h : WellFormed g) {k : FunctionId} {info : FunctionInfo} {c : Call}
    (hk : (g.function? k).map (handOver gone into) = some info) (hc : c ∈ info.calls) :
    g.contains c.returnTo = true ∧ c.returnTo ≠ gone := by
  obtain ⟨info', hk', rfl⟩ := Option.map_eq_some_iff.1 hk
  obtain ⟨c', hc', rfl⟩ := List.mem_map.1 hc
  rw [returnTo_handOver]
  exact ⟨h.returnTo_live hk' hc', hm.calls hk' hc'⟩

/-- No block but `gone` leads to `gone` before it is dropped. -/
theorem Mergeable.not_mem_successors {b tail : Block} (hm : Mergeable g into gone b tail)
    (h : WellFormed g) (hi : i ≠ gone) :
    gone ∉ ((g.prepared into gone tail).withTerminator into tail.terminator).successors i := by
  intro hj
  have hhead : g.bare? into = some b.bare := bare?_of_block? hm.head
  obtain ⟨b', hb', hj⟩ := mem_successors.1 hj
  rw [bare?_withTerminator, bare?_prepared, bare?_unhooked] at hb'
  split at hj
  · obtain ⟨f, info, _, hf, c, hc, heq⟩ := hj
    rw [function?, functions_withTerminator, ← function?, function?_prepared] at hf
    exact (hm.returnTo_live h hf hc).2 heq
  · rename_i hret
    by_cases hinto : into = i
    · subst hinto
      simp only [if_true, or_true, hhead, Option.map_some, Option.some.injEq] at hb'
      subst hb'
      exact (hm.targets_live h hj).2 rfl
    · simp only [hinto, Ne.symm hi, or_self, if_false] at hb'
      exact hinto (hm.only i (mem_successors.2 ⟨b', hb', by rwa [if_neg hret]⟩)).symm

/-- After a merge the lists of predecessors are right. -/
theorem Mergeable.listed_mergeResult {b tail : Block} (hm : Mergeable g into gone b tail)
    (h : WellFormed g) : Listed (fun _ => True) (g.mergeResult into gone tail) := by
  obtain ⟨mid, hmid⟩ : ∃ mid, (g.prepared into gone tail).bare? into = some mid := by
    rw [bare?_prepared, bare?_unhooked, bare?_of_block? hm.head]
    simp
  have hstart : Listed (· ≠ gone) (g.prepared into gone tail) := by
    have hun : Listed (· ≠ gone) (g.unhooked into gone) :=
      listed_unhooked h (contains_iff.2 ⟨b, hm.head⟩)
    exact listed_extended (listed_handedOver hun into gone) into tail
  have hlisted : Listed (· ≠ gone)
      ((g.prepared into gone tail).withTerminator into tail.terminator) := by
    refine (listed_withTerminator hstart fun j hj => ?_).congr fun i => ?_
    · rw [contains_prepared]
      rcases mem_successors_withTerminator hmid hj with ht | ⟨f, info, hf, c, hc, rfl⟩
      · exact (hm.targets_live h ht).1
      · rw [function?_prepared] at hf
        exact (hm.returnTo_live h hf hc).1
    · constructor
      · rintro (hi | rfl)
        · exact hi
        · exact hm.distinct
      · exact .inl
  exact listed_dropBlock hlisted fun i hi => hm.not_mem_successors h hi

/-- All blocks but `gone` are still there. -/
theorem Mergeable.contains_mergeResult {b tail : Block} (hm : Mergeable g into gone b tail)
    (hid : g.contains id = true) (hne : id ≠ gone) :
    (g.mergeResult into gone tail).contains id = true := by
  rw [contains_eq_isSome_bare?, bare?_mergeResult hm, if_neg (Ne.symm hne)]
  split
  · rfl
  · rwa [← contains_eq_isSome_bare?]

/-- A block with a role after a merge is `into`, or another one than `gone` that had it before. -/
theorem Mergeable.designated_mergeResult {b tail : Block} (hm : Mergeable g into gone b tail)
    (hid : id ∈ (g.mergeResult into gone tail).designated) :
    id = into ∨ id ∈ g.designated ∧ id ≠ gone := by
  rw [mem_designated, first_mergeResult, last_mergeResult] at hid
  rcases hid with hfirst | hlast | ⟨k, info, hk, hid⟩
  · exact .inr ⟨mem_designated.2 (.inl hfirst), fun heq => hm.first (heq ▸ hfirst)⟩
  · split at hlast
    · exact .inl (Option.some.inj hlast).symm
    · rename_i hne
      exact .inr ⟨mem_designated.2 (.inr (.inl hlast)), fun heq => hne (heq ▸ hlast)⟩
  · rw [function?_mergeResult] at hk
    obtain ⟨info', hk', rfl⟩ := Option.map_eq_some_iff.1 hk
    -- what a routine designated before, other than `gone`
    have hkept : (info'.entry = some id ∨ info'.exit = some id ∨
        ∃ c ∈ info'.calls, c.caller = id ∨ c.returnTo = id) → id ≠ gone →
        id = into ∨ id ∈ g.designated ∧ id ≠ gone :=
      fun hrole hne => .inr ⟨mem_designated.2 (.inr (.inr ⟨k, info', hk', hrole⟩)), hne⟩
    rcases hid with hentry | hexit | ⟨c, hc, hid⟩
    · exact hkept (.inl hentry) fun heq => hm.entry hk' (heq ▸ hentry)
    · simp only [handOver] at hexit
      split at hexit
      · exact .inl (Option.some.inj hexit).symm
      · rename_i hne
        exact hkept (.inr (.inl hexit)) fun heq => hne (heq ▸ hexit)
    · obtain ⟨c', hc', rfl⟩ := List.mem_map.1 hc
      rcases hid with hcaller | hreturn
      · split at hcaller
        · exact .inl hcaller.symm
        · rename_i hne
          exact hkept (.inr (.inr ⟨c', hc', .inl hcaller⟩)) fun heq => hne (hcaller.trans heq)
      · rw [returnTo_handOver] at hreturn
        exact hkept (.inr (.inr ⟨c', hc', .inr hreturn⟩))
          fun heq => hm.calls hk' hc' (hreturn.trans heq)

/-- A merge breaks no rule. -/
theorem wellFormed_mergeResult {b tail : Block} (h : WellFormed g)
    (hm : Mergeable g into gone b tail) : WellFormed (g.mergeResult into gone tail) where
  edges := hm.listed_mergeResult h
  exits {id b'} hb' := by
    rw [bare?_mergeResult hm] at hb'
    split at hb'
    · exact absurd hb' (by simp)
    · split at hb'
      · obtain rfl := Option.some.inj hb'
        have hexit := h.exits (bare?_of_block? hm.found)
        show SoundExit tail.terminator b.function
        rw [hm.routine]
        exact ⟨hexit.sides, hexit.returns⟩
      · exact h.exits hb'
  roles id hid := by
    rcases hm.designated_mergeResult hid with rfl | ⟨hid, hne⟩
    · exact hm.contains_mergeResult (contains_iff.2 ⟨b, hm.head⟩) hm.distinct
    · exact hm.contains_mergeResult (h.roles id hid) hne

/-- **A merge** of a block that only its predecessor leads to succeeds and changes no
other block. -/
theorem outcome_mergeInto {b tail : Block} (h : WellFormed g)
    (hm : Mergeable g into gone b tail) :
    outcome (mergeInto into gone) g = (.ok (), g.mergeResult into gone tail) := by
  have hinto : g.contains into = true := contains_iff.2 ⟨b, hm.head⟩
  have htail : g.bare? gone = some tail.bare := bare?_of_block? hm.found
  have hnormal : tail.terminator.normalize = tail.terminator :=
    (h.exits htail).normalize
  have hfirst : outcome (setTerminator into .finish) g =
      (.ok (), g.withTerminator into .finish) :=
    outcome_setTerminator hinto fun t ht => by simp [Terminator.normalize, Terminator.targets] at ht
  have hsecond : outcome (setTerminator into tail.terminator) (g.prepared into gone tail) =
      (.ok (), (g.prepared into gone tail).withTerminator into tail.terminator) := by
    have hset := outcome_setTerminator (g := g.prepared into gone tail) (t := tail.terminator)
      ((contains_prepared g into gone into tail).trans hinto) fun t ht => by
        rw [hnormal] at ht
        rw [contains_prepared]
        exact (hm.targets_live h ht).1
    rwa [hnormal] at hset
  rw [mergeInto, if_neg hm.distinct]
  rw [outcome_bind_ok (outcome_block hm.found), outcome_bind_ok hfirst]
  iterate 4 rw [outcome_bind, outcome_modify]; dsimp only
  exact outcome_bind_ok hsecond

end FlowGraph
end FlowVerifier
