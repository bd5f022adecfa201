import FlowVerifier.Flow.Removal
import FlowVerifier.Flow.Valid
import FlowVerifier.Proofs.Computation

/-!
# Edges and lists of predecessors

Edits keep the lists of predecessors in step with the edges by taking a block
out of the lists before its edges change and entering it again afterwards.
In between the lists are complete but for that block, so the invariant is stated
relative to the blocks that are entered.

* `Block.bare` is a block without its list, and `FlowGraph.bare?` the view of a
  graph in which `attach` and `detach` do not show.
* `Listed P g`: the lists hold exactly the edges from blocks in `P`.
* `listed_detach`, `listed_attach`, `listed_withTerminator` and
  `listed_editCalls` say what the edits of edges do to it.
-/

namespace FlowVerifier

/-- The block without its list of predecessors. -/
def Block.bare (b : Block) : Block := { b with predecessors := [] }

namespace FlowGraph

variable {g g' : FlowGraph} {id i j : BlockId} {P Q : BlockId → Prop}

/-! ## Slots -/

theorem block?_modifyBlock (g : FlowGraph) (id j : BlockId) (f : Block → Block) :
    (g.modifyBlock id f).block? j = if id = j then (g.block? j).map f else g.block? j := by
  unfold modifyBlock block?
  rw [Array.getElem?_modify]
  split
  · cases g.slots[j]? <;> rfl
  · rfl

@[simp]
theorem functions_modifyBlock (g : FlowGraph) (id : BlockId) (f : Block → Block) :
    (g.modifyBlock id f).functions = g.functions := rfl

@[simp]
theorem first_modifyBlock (g : FlowGraph) (id : BlockId) (f : Block → Block) :
    (g.modifyBlock id f).first = g.first := rfl

@[simp]
theorem last_modifyBlock (g : FlowGraph) (id : BlockId) (f : Block → Block) :
    (g.modifyBlock id f).last = g.last := rfl

@[simp]
theorem functions_dropBlock (g : FlowGraph) (id : BlockId) :
    (g.dropBlock id).functions = g.functions := rfl

@[simp]
theorem first_dropBlock (g : FlowGraph) (id : BlockId) : (g.dropBlock id).first = g.first := rfl

@[simp]
theorem last_dropBlock (g : FlowGraph) (id : BlockId) : (g.dropBlock id).last = g.last := rfl

theorem block?_dropBlock (g : FlowGraph) (id j : BlockId) :
    (g.dropBlock id).block? j = if id = j then none else g.block? j := by
  unfold dropBlock block?
  rw [Array.getElem?_setIfInBounds]
  split
  · rename_i h
    subst h
    split <;> rfl
  · rfl

theorem lt_size_of_block? {b : Block} (h : g.block? id = some b) : id < g.slots.size := by
  unfold block? at h
  by_cases hid : id < g.slots.size
  · exact hid
  · rw [Array.getElem?_eq_none (Nat.le_of_not_lt hid)] at h
    exact absurd h (by simp)

theorem mem_blocks {b : Block} : (id, b) ∈ g.blocks ↔ g.block? id = some b := by
  unfold blocks
  simp only [List.mem_filterMap, List.mem_range, Option.map_eq_some_iff, Prod.mk.injEq]
  constructor
  · rintro ⟨_, _, _, hb, rfl, rfl⟩
    exact hb
  · intro hb
    exact ⟨id, lt_size_of_block? hb, b, hb, rfl, rfl⟩

theorem mem_ids : id ∈ g.ids ↔ g.contains id = true := by
  simp [ids, mem_blocks, contains, Option.isSome_iff_exists]

/-- The block of an identifier without its list of predecessors. -/
def bare? (g : FlowGraph) (id : BlockId) : Option Block := (g.block? id).map Block.bare

theorem bare?_of_block? {b : Block} (hb : g.block? id = some b) : g.bare? id = some b.bare := by
  rw [bare?, hb]
  rfl

theorem bare?_modifyBlock (g : FlowGraph) (id j : BlockId) (f : Block → Block) :
    (g.modifyBlock id f).bare? j =
      if id = j then (g.block? j).map fun b => (f b).bare else g.bare? j := by
  unfold bare?
  rw [block?_modifyBlock]
  split
  · cases g.block? j <;> rfl
  · rfl

theorem contains_eq_isSome_bare? (g : FlowGraph) (id : BlockId) :
    g.contains id = (g.bare? id).isSome := by
  simp [contains, bare?]

theorem contains_modifyBlock (g : FlowGraph) (id j : BlockId) (f : Block → Block) :
    (g.modifyBlock id f).contains j = g.contains j := by
  rw [contains, contains, block?_modifyBlock]
  split
  · exact Option.isSome_map
  · rfl

theorem contains_of_bare? {b : Block} (hb : g.bare? id = some b) : g.contains id = true := by
  rw [contains_eq_isSome_bare?, hb]
  rfl

theorem contains_iff {g : FlowGraph} {id : BlockId} :
    g.contains id = true ↔ ∃ b, g.block? id = some b := by
  simp [contains, Option.isSome_iff_exists]

/-- The edges of a block follow from its terminator, its function and where that
returns to. -/
theorem successors_congr_exits
    (hb : (g'.bare? id).map (fun b => (b.terminator, b.function)) =
      (g.bare? id).map fun b => (b.terminator, b.function))
    (hr : ∀ f, g'.returnSitesOf f = g.returnSitesOf f) : g'.successors id = g.successors id := by
  unfold bare? at hb
  simp only [Option.map_map] at hb
  unfold successors
  cases h : g.block? id with
  | none =>
      rw [h] at hb
      rw [Option.map_eq_none_iff.1 hb]
  | some b =>
      rw [h] at hb
      obtain ⟨b', hb', heq⟩ := Option.map_eq_some_iff.1 hb
      obtain ⟨ht, hf⟩ := Prod.mk.inj heq
      simp only [Block.bare] at ht hf
      rw [hb']
      simp only [ht, hf, hr]

theorem successors_congr_sites (hb : g'.bare? id = g.bare? id)
    (hr : ∀ f, g'.returnSitesOf f = g.returnSitesOf f) : g'.successors id = g.successors id :=
  successors_congr_exits (by rw [hb]) hr

theorem returnSitesOf_congr (hf : g'.functions = g.functions) (f : Option FunctionId) :
    g'.returnSitesOf f = g.returnSitesOf f := by
  unfold returnSitesOf
  cases f with
  | none => rfl
  | some f => simp only [Option.bind_some, function?, hf]

theorem successors_congr (hb : g'.bare? id = g.bare? id) (hf : g'.functions = g.functions) :
    g'.successors id = g.successors id :=
  successors_congr_sites hb (returnSitesOf_congr hf)

theorem predecessors_modifyBlock {f : Block → Block}
    (hf : ∀ b, (f b).predecessors = b.predecessors) (g : FlowGraph) (id j : BlockId) :
    (g.modifyBlock id f).predecessors j = g.predecessors j := by
  unfold predecessors
  rw [block?_modifyBlock]
  split
  · cases g.block? j <;> simp [hf]
  · rfl

/-! ## Entering and leaving the lists -/

/-- A graph in which a block was entered in some lists, or taken out of them. -/
structure SameButLists (g' g : FlowGraph) : Prop where
  bare : ∀ id, g'.bare? id = g.bare? id
  functions : g'.functions = g.functions
  first : g'.first = g.first
  last : g'.last = g.last

namespace SameButLists

theorem refl (g : FlowGraph) : SameButLists g g := ⟨fun _ => rfl, rfl, rfl, rfl⟩

theorem trans {g'' : FlowGraph} (h : SameButLists g'' g') (h' : SameButLists g' g) :
    SameButLists g'' g :=
  ⟨fun id => (h.bare id).trans (h'.bare id), h.functions.trans h'.functions,
    h.first.trans h'.first, h.last.trans h'.last⟩

theorem successors (h : SameButLists g' g) (id : BlockId) :
    g'.successors id = g.successors id :=
  successors_congr (h.bare id) h.functions

theorem contains (h : SameButLists g' g) (id : BlockId) : g'.contains id = g.contains id := by
  rw [contains_eq_isSome_bare?, contains_eq_isSome_bare?, h.bare]

/-- A change of one list. -/
theorem modifyBlock {f : Block → Block} (hf : ∀ b, (f b).bare = b.bare) (id : BlockId) :
    SameButLists (g.modifyBlock id f) g := by
  refine ⟨fun j => ?_, rfl, rfl, rfl⟩
  rw [bare?_modifyBlock]
  split
  · simp only [hf]
    rfl
  · rfl

theorem foldl {α : Type} {f : FlowGraph → α → FlowGraph} {l : List α}
    (hf : ∀ g a, SameButLists (f g a) g) (g : FlowGraph) : SameButLists (l.foldl f g) g := by
  induction l generalizing g with
  | nil => exact .refl g
  | cons a l ih => exact (ih (f g a)).trans (hf g a)

end SameButLists

theorem bare_addPredecessor (id : BlockId) (b : Block) : (b.addPredecessor id).bare = b.bare := by
  unfold Block.addPredecessor
  split <;> rfl

theorem bare_erasePredecessor (id : BlockId) (b : Block) :
    (b.erasePredecessor id).bare = b.bare := rfl

theorem sameButLists_attach (g : FlowGraph) (id : BlockId) : SameButLists (g.attach id) g :=
  .foldl (fun _ s => .modifyBlock (bare_addPredecessor id) s) g

theorem sameButLists_detach (g : FlowGraph) (id : BlockId) : SameButLists (g.detach id) g :=
  .foldl (fun _ s => .modifyBlock (bare_erasePredecessor id) s) g

theorem mem_addPredecessor {b : Block} :
    i ∈ (b.addPredecessor id).predecessors ↔ i ∈ b.predecessors ∨ i = id := by
  unfold Block.addPredecessor
  split
  · rename_i h
    have hid : id ∈ b.predecessors := by simpa using h
    constructor
    · exact Or.inl
    · rintro (hi | rfl)
      · exact hi
      · exact hid
  · simp only [List.mem_append, List.mem_filter, List.mem_cons, decide_eq_true_eq]
    constructor
    · rintro (⟨hi, _⟩ | rfl | ⟨hi, _⟩)
      · exact .inl hi
      · exact .inr rfl
      · exact .inl hi
    · rintro (hi | rfl)
      · rcases Nat.lt_trichotomy i id with hlt | rfl | hlt
        · exact .inl ⟨hi, hlt⟩
        · exact .inr (.inl rfl)
        · exact .inr (.inr ⟨hi, hlt⟩)
      · exact .inr (.inl rfl)

theorem mem_erasePredecessor {b : Block} :
    i ∈ (b.erasePredecessor id).predecessors ↔ i ∈ b.predecessors ∧ i ≠ id := by
  simp [Block.erasePredecessor]

theorem mem_predecessors_modifyBlock {f : Block → Block} (g : FlowGraph) (id i j : BlockId) :
    i ∈ (g.modifyBlock id f).predecessors j ↔
      if id = j then ∃ b, g.block? j = some b ∧ i ∈ (f b).predecessors
      else i ∈ g.predecessors j := by
  unfold predecessors
  rw [block?_modifyBlock]
  split
  · cases g.block? j <;> simp
  · rfl

theorem mem_predecessors_iff {g : FlowGraph} {i j : BlockId} :
    i ∈ g.predecessors j ↔ ∃ b, g.block? j = some b ∧ i ∈ b.predecessors := by
  unfold predecessors
  cases g.block? j <;> simp

/-- Entering a block in the lists of some blocks. -/
theorem mem_predecessors_foldl_add (id : BlockId) (targets : List BlockId) (g : FlowGraph)
    (i j : BlockId) :
    i ∈ (targets.foldl (fun g s => g.modifyBlock s (Block.addPredecessor id)) g).predecessors j ↔
      i ∈ g.predecessors j ∨ i = id ∧ j ∈ targets ∧ g.contains j = true := by
  induction targets generalizing g with
  | nil => simp
  | cons s targets ih =>
      have hc : (g.modifyBlock s (Block.addPredecessor id)).contains j = g.contains j :=
        (SameButLists.modifyBlock (bare_addPredecessor id) s).contains j
      rw [List.foldl_cons, ih, hc, mem_predecessors_modifyBlock]
      by_cases hs : s = j
      · subst hs
        simp only [if_true, mem_addPredecessor, mem_predecessors_iff, contains_iff,
          List.mem_cons_self, true_and]
        constructor
        · rintro (⟨b, hb, hi | rfl⟩ | ⟨rfl, _, b, hb⟩)
          · exact .inl ⟨b, hb, hi⟩
          · exact .inr ⟨rfl, b, hb⟩
          · exact .inr ⟨rfl, b, hb⟩
        · rintro (⟨b, hb, hi⟩ | ⟨rfl, b, hb⟩)
          · exact .inl ⟨b, hb, .inl hi⟩
          · exact .inl ⟨b, hb, .inr rfl⟩
      · simp [hs, Ne.symm hs]

/-- Taking a block out of the lists of some blocks. -/
theorem mem_predecessors_foldl_erase (id : BlockId) (targets : List BlockId) (g : FlowGraph)
    (i j : BlockId) :
    i ∈ (targets.foldl (fun g s => g.modifyBlock s (Block.erasePredecessor id)) g).predecessors
        j ↔
      i ∈ g.predecessors j ∧ ¬ (i = id ∧ j ∈ targets) := by
  induction targets generalizing g with
  | nil => simp
  | cons s targets ih =>
      rw [List.foldl_cons, ih, mem_predecessors_modifyBlock]
      by_cases hs : s = j
      · subst hs
        simp only [if_true, mem_erasePredecessor, mem_predecessors_iff, List.mem_cons_self]
        constructor
        · rintro ⟨⟨b, hb, hi, hne⟩, _⟩
          exact ⟨⟨b, hb, hi⟩, fun h => hne h.1⟩
        · rintro ⟨⟨b, hb, hi⟩, hne⟩
          have hid : i ≠ id := fun h => hne ⟨h, trivial⟩
          exact ⟨⟨b, hb, hi, hid⟩, fun h => hid h.1⟩
      · simp [hs, Ne.symm hs]

/-! ## The invariant -/

/-- The lists of predecessors hold exactly the edges from blocks in `P`. -/
def Listed (P : BlockId → Prop) (g : FlowGraph) : Prop :=
  ∀ i j, i ∈ g.predecessors j ↔ P i ∧ j ∈ g.successors i

theorem Listed.congr (h : Listed P g) (hPQ : ∀ i, P i ↔ Q i) : Listed Q g := by
  intro i j
  rw [h i j, hPQ i]

/-- A block has only edges to blocks that exist. -/
theorem Listed.contains (h : Listed P g) (hi : P i) (hj : j ∈ g.successors i) :
    g.contains j = true := by
  obtain ⟨b, hb, _⟩ := mem_predecessors_iff.1 ((h i j).2 ⟨hi, hj⟩)
  exact contains_iff.2 ⟨b, hb⟩

/-- A detached block is in no list. -/
theorem listed_detach (h : Listed P g) (id : BlockId) :
    Listed (fun i => P i ∧ i ≠ id) (g.detach id) := by
  intro i j
  rw [(sameButLists_detach g id).successors]
  unfold detach
  rw [mem_predecessors_foldl_erase, h i j]
  constructor
  · rintro ⟨⟨hi, hj⟩, hne⟩
    exact ⟨⟨hi, fun heq => hne ⟨heq, heq ▸ hj⟩⟩, hj⟩
  · rintro ⟨⟨hi, hne⟩, hj⟩
    exact ⟨⟨hi, hj⟩, fun heq => hne heq.1⟩

/-- An attached block is in the lists of its successors. -/
theorem listed_attach (h : Listed P g) (hid : ∀ j ∈ g.successors id, g.contains j = true) :
    Listed (fun i => P i ∨ i = id) (g.attach id) := by
  intro i j
  rw [(sameButLists_attach g id).successors]
  unfold attach
  rw [mem_predecessors_foldl_add, h i j]
  constructor
  · rintro (⟨hi, hj⟩ | ⟨rfl, hj, _⟩)
    · exact ⟨.inl hi, hj⟩
    · exact ⟨.inr rfl, hj⟩
  · rintro ⟨hi | rfl, hj⟩
    · exact .inl ⟨hi, hj⟩
    · exact .inr ⟨rfl, hj, hid j hj⟩

/-- A change that leaves the lists and the edges from entered blocks alone. -/
theorem Listed.transport (h : Listed P g) (hp : ∀ j, g'.predecessors j = g.predecessors j)
    (hs : ∀ i, P i → g'.successors i = g.successors i) : Listed P g' := by
  intro i j
  rw [hp j, h i j]
  constructor
  · rintro ⟨hi, hj⟩
    exact ⟨hi, by rwa [hs i hi]⟩
  · rintro ⟨hi, hj⟩
    exact ⟨hi, by rwa [hs i hi] at hj⟩

theorem bare?_dropBlock (g : FlowGraph) (id j : BlockId) :
    (g.dropBlock id).bare? j = if id = j then none else g.bare? j := by
  unfold bare?
  rw [block?_dropBlock]
  split <;> rfl

theorem successors_dropBlock (g : FlowGraph) (hi : i ≠ id) :
    (g.dropBlock id).successors i = g.successors i := by
  refine successors_congr ?_ rfl
  rw [bare?_dropBlock, if_neg (Ne.symm hi)]

/-- **A block can be dropped** if no other block has an edge to it, and if it is in the
list of no other block. -/
theorem listed_dropBlock_iff (h : Listed P g) (hP : ∀ i, i ≠ id → P i) :
    Listed (fun _ => True) (g.dropBlock id) ↔
      (∀ i, i ≠ id → id ∉ g.successors i) ∧ (P id → ∀ j, j ≠ id → j ∉ g.successors id) := by
  have hpreds : ∀ i j, i ∈ (g.dropBlock id).predecessors j ↔ j ≠ id ∧ i ∈ g.predecessors j := by
    intro i j
    unfold predecessors
    rw [block?_dropBlock]
    by_cases hj : id = j
    · simp [hj]
    · rw [if_neg hj]
      exact ⟨fun hi => ⟨Ne.symm hj, hi⟩, fun hi => hi.2⟩
  have hgone : (g.dropBlock id).successors id = [] := by
    have hnone : (g.dropBlock id).block? id = none := by rw [block?_dropBlock, if_pos rfl]
    simp [successors, hnone]
  constructor
  · intro hall
    refine ⟨fun i hi hedge => ?_, fun hid j hj hedge => ?_⟩
    · rw [← successors_dropBlock g hi] at hedge
      exact ((hpreds i id).1 ((hall i id).2 ⟨trivial, hedge⟩)).1 rfl
    · have hlist := (hall id j).1 ((hpreds id j).2 ⟨hj, (h id j).2 ⟨hid, hedge⟩⟩)
      rw [hgone] at hlist
      exact absurd hlist.2 (by simp)
  · rintro ⟨hto, hfrom⟩ i j
    rw [hpreds, h i j, true_and]
    by_cases hi : i = id
    · subst hi
      rw [hgone]
      refine ⟨fun ⟨hj, hid, hedge⟩ => absurd hedge (hfrom hid j hj), fun hedge => ?_⟩
      exact absurd hedge (by simp)
    · rw [successors_dropBlock g hi]
      refine ⟨fun hedge => hedge.2.2, fun hedge => ⟨?_, hP i hi, hedge⟩⟩
      rintro rfl
      exact hto i hi hedge

/-- A block that is in no list and has no predecessor can be dropped. -/
theorem listed_dropBlock (h : Listed (· ≠ id) g) (hnone : ∀ i, i ≠ id → id ∉ g.successors i) :
    Listed (fun _ => True) (g.dropBlock id) :=
  (listed_dropBlock_iff h fun _ hi => hi).2 ⟨hnone, fun hid => absurd rfl hid⟩

/-! ## Terminators -/

/-- The graph in which a block has another terminator. -/
def withTerminator (g : FlowGraph) (id : BlockId) (t : Terminator) : FlowGraph :=
  ((g.detach id).modifyBlock id fun b => { b with terminator := t }).attach id

theorem outcome_block {b : Block} (h : g.block? id = some b) :
    outcome (Edit.block id) g = (.ok b, g) := by
  unfold Edit.block
  rw [outcome_bind, outcome_get]
  dsimp only
  rw [h]
  rfl

theorem outcome_block_none (h : g.block? id = none) :
    outcome (Edit.block id) g = (.error (.unknownNode (BlockId.text id)), g) := by
  unfold Edit.block
  rw [outcome_bind, outcome_get]
  dsimp only
  rw [h]
  rfl

/-- Looking at blocks that exist changes nothing. -/
theorem outcome_forIn_block {targets : List BlockId}
    (h : ∀ t ∈ targets, g.contains t = true) :
    outcome (forIn targets PUnit.unit fun target _ => do
      let _ ← Edit.block target
      pure (ForInStep.yield PUnit.unit)) g = (.ok ⟨⟩, g) := by
  induction targets with
  | nil => rfl
  | cons t targets ih =>
      obtain ⟨b, hb⟩ := contains_iff.1 (h t (List.mem_cons_self ..))
      rw [List.forIn_cons, bind_assoc, outcome_bind_ok (outcome_block hb), pure_bind]
      exact ih fun t ht => h t (List.mem_cons_of_mem _ ht)

/-- **Giving a block another terminator** succeeds if the targets exist. -/
theorem outcome_setTerminator {t : Terminator} (hid : g.contains id = true)
    (ht : ∀ target ∈ t.normalize.targets, g.contains target = true) :
    outcome (setTerminator id t) g = (.ok (), g.withTerminator id t.normalize) := by
  have hid' : (g.detach id).contains id = true := by
    rw [(sameButLists_detach g id).contains, hid]
  obtain ⟨b, hb⟩ := contains_iff.1 hid'
  rw [setTerminator, outcome_bind_ok (outcome_forIn_block ht), outcome_bind, outcome_modify]
  dsimp only
  rw [outcome_bind_ok (outcome_block hb)]
  rfl

/-- Looking for a block that does not exist ends an edit. -/
theorem outcome_forIn_block_error {targets : List BlockId}
    (h : ¬ ∀ t ∈ targets, g.contains t = true) :
    ∃ label, outcome (forIn targets PUnit.unit fun target _ => do
      let _ ← Edit.block target
      pure (ForInStep.yield PUnit.unit)) g = (.error (.unknownNode label), g) := by
  induction targets with
  | nil => exact absurd (by simp) h
  | cons t targets ih =>
      rw [List.forIn_cons, bind_assoc]
      cases hb : g.block? t with
      | none => exact ⟨_, outcome_bind_error (outcome_block_none hb)⟩
      | some b =>
          rw [outcome_bind_ok (outcome_block hb), pure_bind]
          refine ih fun hall => h fun t' ht' => ?_
          rcases List.mem_cons.1 ht' with rfl | ht'
          · exact contains_iff.2 ⟨b, hb⟩
          · exact hall t' ht'

/-- **A terminator that cannot be given** leaves the graph alone. -/
theorem outcome_setTerminator_error {t : Terminator}
    (h : ¬ (g.contains id = true ∧ ∀ target ∈ t.normalize.targets, g.contains target = true)) :
    ∃ label, outcome (setTerminator id t) g = (.error (.unknownNode label), g) := by
  unfold setTerminator
  by_cases ht : ∀ target ∈ t.normalize.targets, g.contains target = true
  · have hid : g.block? id = none := by
      cases hb : g.block? id with
      | none => rfl
      | some b => exact absurd ⟨contains_iff.2 ⟨b, hb⟩, ht⟩ h
    have hdetach : g.detach id = g := by simp [detach, successors, hid]
    rw [outcome_bind_ok (outcome_forIn_block ht), outcome_bind, outcome_modify]
    dsimp only
    rw [hdetach]
    exact ⟨_, outcome_bind_error (outcome_block_none hid)⟩
  · obtain ⟨label, hrun⟩ := outcome_forIn_block_error ht
    exact ⟨label, outcome_bind_error hrun⟩

theorem bare?_withTerminator (g : FlowGraph) (id j : BlockId) (t : Terminator) :
    (g.withTerminator id t).bare? j =
      if id = j then (g.bare? j).map fun b => { b with terminator := t } else g.bare? j := by
  rw [withTerminator, (sameButLists_attach _ id).bare, bare?_modifyBlock]
  split
  · rw [← (sameButLists_detach g id).bare j, bare?, Option.map_map]
    rfl
  · exact (sameButLists_detach g id).bare j

theorem contains_withTerminator (g : FlowGraph) (id j : BlockId) (t : Terminator) :
    (g.withTerminator id t).contains j = g.contains j := by
  rw [contains_eq_isSome_bare?, contains_eq_isSome_bare?, bare?_withTerminator]
  split <;> simp

@[simp]
theorem functions_withTerminator (g : FlowGraph) (id : BlockId) (t : Terminator) :
    (g.withTerminator id t).functions = g.functions := by
  rw [withTerminator, (sameButLists_attach _ id).functions]
  exact (sameButLists_detach g id).functions

@[simp]
theorem first_withTerminator (g : FlowGraph) (id : BlockId) (t : Terminator) :
    (g.withTerminator id t).first = g.first := by
  rw [withTerminator, (sameButLists_attach _ id).first]
  exact (sameButLists_detach g id).first

@[simp]
theorem last_withTerminator (g : FlowGraph) (id : BlockId) (t : Terminator) :
    (g.withTerminator id t).last = g.last := by
  rw [withTerminator, (sameButLists_attach _ id).last]
  exact (sameButLists_detach g id).last

/-- The lists follow a change of the terminator. -/
theorem listed_withTerminator {t : Terminator} (h : Listed P g)
    (ht : ∀ j ∈ (g.withTerminator id t).successors id, g.contains j = true) :
    Listed (fun i => P i ∨ i = id) (g.withTerminator id t) := by
  have hmid : Listed (fun i => P i ∧ i ≠ id)
      ((g.detach id).modifyBlock id fun b => { b with terminator := t }) := by
    refine (listed_detach h id).transport
      (predecessors_modifyBlock (f := fun b => { b with terminator := t }) (fun _ => rfl) _ id) ?_
    rintro i ⟨_, hne⟩
    refine successors_congr ?_ rfl
    rw [bare?_modifyBlock, if_neg (Ne.symm hne)]
  refine (listed_attach hmid ?_).congr ?_
  · intro j hj
    rw [← (sameButLists_attach _ id).successors] at hj
    rw [← (sameButLists_attach _ id).contains]
    exact (contains_withTerminator g id j t).trans (ht j hj)
  · intro i
    constructor
    · rintro (⟨hi, _⟩ | rfl)
      · exact .inl hi
      · exact .inr rfl
    · rintro (hi | rfl)
      · by_cases heq : i = id
        · exact .inr heq
        · exact .inl ⟨hi, heq⟩
      · exact .inr rfl

/-! ## Calls -/

theorem mem_returningBlocks {f : FunctionId} :
    i ∈ g.returningBlocks f ↔
      ∃ b, g.block? i = some b ∧ b.function = some f ∧ b.terminator.isReturn = true := by
  unfold returningBlocks
  simp only [List.mem_map, List.mem_filter, mem_blocks, Bool.and_eq_true, beq_iff_eq,
    Prod.exists]
  constructor
  · rintro ⟨j, b, ⟨hb, hf, ht⟩, rfl⟩
    exact ⟨b, hb, hf, ht⟩
  · rintro ⟨b, hb, hf, ht⟩
    exact ⟨i, b, ⟨hb, hf, ht⟩, rfl⟩

theorem listed_foldl_detach (h : Listed P g) (l : List BlockId) :
    Listed (fun i => P i ∧ i ∉ l) (l.foldl detach g) := by
  induction l generalizing g P with
  | nil => exact h.congr fun i => by simp
  | cons id l ih =>
      refine (ih (listed_detach h id)).congr fun i => ?_
      simp only [List.mem_cons, not_or]
      constructor
      · rintro ⟨⟨hi, hne⟩, hl⟩
        exact ⟨hi, hne, hl⟩
      · rintro ⟨hi, hne, hl⟩
        exact ⟨⟨hi, hne⟩, hl⟩

theorem listed_foldl_attach (h : Listed P g) (l : List BlockId)
    (hl : ∀ i ∈ l, ∀ j ∈ g.successors i, g.contains j = true) :
    Listed (fun i => P i ∨ i ∈ l) (l.foldl attach g) := by
  induction l generalizing g P with
  | nil => exact h.congr fun i => by simp
  | cons id l ih =>
      have hsame := sameButLists_attach g id
      refine (ih (listed_attach h (hl id (List.mem_cons_self ..))) ?_).congr fun i => ?_
      · intro i hi j hj
        rw [hsame.successors] at hj
        rw [hsame.contains]
        exact hl i (List.mem_cons_of_mem _ hi) j hj
      · rw [List.mem_cons, or_assoc]

theorem function?_modifyFunction (g : FlowGraph) (f k : FunctionId)
    (change : FunctionInfo → FunctionInfo) :
    (g.modifyFunction f change).function? k =
      if f = k then (g.function? k).map change else g.function? k := by
  unfold modifyFunction function?
  rw [Array.getElem?_modify]

/-- A change of a function changes the edges of its returning blocks only. -/
theorem successors_modifyFunction {f : FunctionId} {change : FunctionInfo → FunctionInfo}
    (hi : i ∉ g.returningBlocks f) :
    (g.modifyFunction f change).successors i = g.successors i := by
  have hblock : (g.modifyFunction f change).block? i = g.block? i := rfl
  unfold successors
  rw [hblock]
  cases hb : g.block? i with
  | none => rfl
  | some b =>
      dsimp only
      split
      · rename_i ht
        unfold returnSitesOf
        cases hf : b.function with
        | none => rfl
        | some k =>
            have hne : f ≠ k := by
              rintro rfl
              exact hi (mem_returningBlocks.2 ⟨b, hb, hf, ht⟩)
            simp only [Option.bind_some, function?_modifyFunction, if_neg hne]
      · rfl

/-- A change of the calls shows in the function only. -/
theorem bare?_editCalls (g : FlowGraph) (f : FunctionId) (change : List Call → List Call)
    (id : BlockId) : (g.editCalls f change).bare? id = g.bare? id := by
  unfold editCalls
  dsimp only
  rw [(SameButLists.foldl sameButLists_attach _).bare]
  exact (SameButLists.foldl sameButLists_detach g).bare id

theorem contains_editCalls (g : FlowGraph) (f : FunctionId) (change : List Call → List Call)
    (id : BlockId) : (g.editCalls f change).contains id = g.contains id := by
  rw [contains_eq_isSome_bare?, contains_eq_isSome_bare?, bare?_editCalls]

theorem function?_editCalls (g : FlowGraph) (f k : FunctionId)
    (change : List Call → List Call) :
    (g.editCalls f change).function? k =
      if f = k then (g.function? k).map fun info => { info with calls := change info.calls }
      else g.function? k := by
  unfold editCalls
  dsimp only
  unfold function?
  rw [(SameButLists.foldl sameButLists_attach _).functions]
  have hd := (SameButLists.foldl sameButLists_detach (l := g.returningBlocks f) g).functions
  rw [← hd]
  exact function?_modifyFunction _ f k _

theorem first_editCalls (g : FlowGraph) (f : FunctionId) (change : List Call → List Call) :
    (g.editCalls f change).first = g.first := by
  unfold editCalls
  dsimp only
  rw [(SameButLists.foldl sameButLists_attach _).first]
  exact (SameButLists.foldl sameButLists_detach g).first

theorem last_editCalls (g : FlowGraph) (f : FunctionId) (change : List Call → List Call) :
    (g.editCalls f change).last = g.last := by
  unfold editCalls
  dsimp only
  rw [(SameButLists.foldl sameButLists_attach _).last]
  exact (SameButLists.foldl sameButLists_detach g).last

theorem mem_returningBlocks_bare {f : FunctionId} :
    i ∈ g.returningBlocks f ↔
      ∃ b, g.bare? i = some b ∧ b.function = some f ∧ b.terminator.isReturn = true := by
  rw [mem_returningBlocks]
  unfold bare?
  cases g.block? i <;> simp [Block.bare]

theorem returningBlocks_congr {f : FunctionId} (h : ∀ id, g'.bare? id = g.bare? id)
    (i : BlockId) : i ∈ g'.returningBlocks f ↔ i ∈ g.returningBlocks f := by
  rw [mem_returningBlocks_bare, mem_returningBlocks_bare, h]

/-- A change of the calls of a function enters all its returning blocks in the lists. -/
theorem listed_editCalls_returning {f : FunctionId} {change : List Call → List Call}
    (h : Listed P g)
    (hlive : ∀ i ∈ g.returningBlocks f, ∀ j ∈ (g.editCalls f change).successors i,
      g.contains j = true) :
    Listed (fun i => P i ∨ i ∈ g.returningBlocks f) (g.editCalls f change) := by
  have hdetach := SameButLists.foldl sameButLists_detach (l := g.returningBlocks f) g
  have hmid : Listed (fun i => P i ∧ i ∉ g.returningBlocks f)
      (((g.returningBlocks f).foldl detach g).modifyFunction f fun info =>
        { info with calls := change info.calls }) := by
    refine (listed_foldl_detach h _).transport (fun _ => rfl) ?_
    rintro i ⟨_, hi⟩
    refine successors_modifyFunction ?_
    rwa [returningBlocks_congr hdetach.bare]
  refine (listed_foldl_attach hmid (g.returningBlocks f) ?_).congr fun i => ?_
  · intro i hi j hj
    rw [← (SameButLists.foldl sameButLists_attach (l := g.returningBlocks f) _).successors] at hj
    have := hlive i hi j hj
    rw [← hdetach.contains] at this
    exact this
  · constructor
    · rintro (⟨hi, _⟩ | hi)
      · exact .inl hi
      · exact .inr hi
    · intro hi
      by_cases hmem : i ∈ g.returningBlocks f
      · exact .inr hmem
      · exact .inl ⟨hi.resolve_right hmem, hmem⟩

/-- The lists follow a change of the calls of a function. -/
theorem listed_editCalls {f : FunctionId} {change : List Call → List Call} (h : Listed P g)
    (hall : ∀ i ∈ g.returningBlocks f, P i)
    (hlive : ∀ i ∈ g.returningBlocks f, ∀ j ∈ (g.editCalls f change).successors i,
      g.contains j = true) :
    Listed P (g.editCalls f change) :=
  (listed_editCalls_returning h hlive).congr fun i =>
    ⟨fun hi => hi.elim (fun h => h) (hall i), .inl⟩

end FlowGraph
end FlowVerifier
