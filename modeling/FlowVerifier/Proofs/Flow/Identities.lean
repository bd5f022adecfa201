import FlowVerifier.Proofs.Flow.Construction
import FlowVerifier.Proofs.Flow.Names
import FlowVerifier.Proofs.Flow.Redirect
import FlowVerifier.Proofs.Invariants

/-!
# Names and identifiers under edits

An identifier is the number of a slot.  Edits of edges, bodies, roles and calls leave the
names in the slots alone, and put control instructions only at the end of a block.  What is
left are the edits that add a block in a new slot, and those that empty one.

* `FlowGraph.names` are the names by identifier.  All that is asked about names and
  identifiers can be read off there (`name?_eq`, `idOf?_congr_names`).
* `Straight` graphs have no control instructions in bodies.
* `Labelled names` is kept by the edits of the first kind (`labelled_setTerminator`,
  `labelled_redirect` and so on).
* `Turns`: removing or merging a block empties its slot if it succeeds, and does not touch the
  names otherwise (`turns_removeNode`, `turns_mergeInto`).
-/

namespace FlowVerifier

/-- No instruction of the body is a control instruction. -/
def Block.Straight (b : Block) : Prop := ∀ i ∈ b.body, i.isControl = false

namespace FlowGraph

/-- The names of the blocks by identifier; none where a block was removed. -/
def names (g : FlowGraph) : Array (Option String) := g.slots.map (Option.map Block.name)

/-- Control instructions stand in no body. -/
def Straight (g : FlowGraph) : Prop := ∀ id b, g.block? id = some b → b.Straight

/-- The blocks have these names, and no control instructions in their bodies. -/
structure Labelled (names : Array (Option String)) (g : FlowGraph) : Prop where
  names : g.names = names
  straight : g.Straight

variable {g g' : FlowGraph} {id : BlockId} {names names' : Array (Option String)}

/-! ## Names -/

@[simp]
theorem size_names (g : FlowGraph) : g.names.size = g.slots.size := Array.size_map ..

theorem name?_eq (g : FlowGraph) (id : BlockId) : g.name? id = g.names[id]?.join := by
  unfold name? block? FlowGraph.names
  rw [Array.getElem?_map]
  cases g.slots[id]? <;> rfl

theorem name?_of_block? {b : Block} (hb : g.block? id = some b) : g.name? id = some b.name := by
  rw [name?, hb]
  rfl

theorem contains_eq_isSome_name? (g : FlowGraph) (id : BlockId) :
    g.contains id = (g.name? id).isSome := by simp [contains, name?]

theorem name?_congr_names (h : g'.names = g.names) (id : BlockId) : g'.name? id = g.name? id := by
  rw [name?_eq, name?_eq, h]

/-- What a name finds is a matter of the names alone. -/
theorem idOf?_congr_names (h : g'.names = g.names) (name : String) :
    g'.idOf? name = g.idOf? name := by
  have hread : ∀ g : FlowGraph, g.idOf? name =
      (List.range g.names.size).find? fun id => (g.names[id]?.join).any (· == name) := by
    intro g
    unfold idOf?
    rw [size_names]
    congr 1
    funext id
    rw [← name?_eq, name?]
    cases g.block? id <;> rfl
  rw [hread, hread, h]

/-- The names after a block was added. -/
theorem name?_addBlock (g : FlowGraph) (b : Block) (id : BlockId) :
    (g.addBlock b).name? id = if id = g.slots.size then some b.name else g.name? id := by
  rw [name?, block?_addBlock]
  split <;> rfl

/-- The names after a slot was emptied. -/
theorem name?_of_emptied (h : g'.names = g.names.setIfInBounds id none) (j : BlockId) :
    g'.name? j = if id = j then none else g.name? j := by
  rw [name?_eq, h, name?_eq, Array.getElem?_setIfInBounds]
  split
  · split <;> rfl
  · rfl

theorem uniqueNames_iff : UniqueNames g ↔
    ∀ i j name, g.name? i = some name → g.name? j = some name → i = j := by
  have hname : ∀ id name, g.name? id = some name ↔ ∃ b, g.bare? id = some b ∧ b.name = name := by
    intro id name
    rw [name?, bare?, Option.map_eq_some_iff]
    cases g.block? id with
    | none => simp
    | some b => simp [Block.bare]
  constructor
  · intro h i j name hi hj
    obtain ⟨b, hb, hname'⟩ := (hname i name).1 hi
    obtain ⟨c, hc, rfl⟩ := (hname j name).1 hj
    exact h i j b c hb hc hname'
  · intro h i j b c hb hc heq
    exact h i j c.name ((hname i _).2 ⟨b, hb, heq⟩) ((hname j _).2 ⟨c, hc, rfl⟩)

/-- A name finds the block that has it. -/
theorem idOf?_eq_some_iff_name? (h : UniqueNames g) {name : String} :
    g.idOf? name = some id ↔ g.name? id = some name := by
  rw [idOf?_eq_some_iff h, name?, bare?, Option.map_eq_some_iff]
  cases g.block? id with
  | none => simp
  | some b => simp [Block.bare]

/-! ## Changes of blocks and of the record -/

namespace Labelled

theorem of_slots (h : Labelled names g) (hslots : g'.slots = g.slots) : Labelled names g' := by
  have hblock : ∀ id, g'.block? id = g.block? id := fun id => by rw [block?, hslots, block?]
  refine ⟨by rw [FlowGraph.names, hslots]; exact h.names, fun id b hb => ?_⟩
  exact h.straight id b (hblock id ▸ hb)

theorem modifyBlock (h : Labelled names g) (id : BlockId) {f : Block → Block}
    (hname : ∀ b, (f b).name = b.name) (hbody : ∀ b, b.Straight → (f b).Straight) :
    Labelled names (g.modifyBlock id f) := by
  refine ⟨?_, fun j b hb => ?_⟩
  · rw [← h.names]
    refine Array.ext_getElem? fun i => ?_
    simp only [FlowGraph.names, FlowGraph.modifyBlock, Array.getElem?_map, Array.getElem?_modify]
    split
    · cases g.slots[i]? with
      | none => rfl
      | some slot => cases slot <;> simp [hname]
    · rfl
  · rw [block?_modifyBlock] at hb
    split at hb
    · obtain ⟨b', hb', rfl⟩ := Option.map_eq_some_iff.1 hb
      exact hbody b' (h.straight j b' hb')
    · exact h.straight j b hb

/-- A change of a block that leaves its name and its body alone. -/
theorem touchBlock (h : Labelled names g) (id : BlockId) {f : Block → Block}
    (hname : ∀ b, (f b).name = b.name) (hbody : ∀ b, (f b).body = b.body) :
    Labelled names (g.modifyBlock id f) :=
  h.modifyBlock id hname fun b hb i hi => hb i (hbody b ▸ hi)

theorem foldl {α : Type} {f : FlowGraph → α → FlowGraph}
    (hf : ∀ g a, Labelled names g → Labelled names (f g a)) (l : List α) (h : Labelled names g) :
    Labelled names (l.foldl f g) := by
  induction l generalizing g with
  | nil => exact h
  | cons a l ih => exact ih (hf g a h)

theorem attach (h : Labelled names g) (id : BlockId) : Labelled names (g.attach id) := by
  refine foldl (fun g s hg => hg.touchBlock s (fun b => ?_) fun b => ?_) _ h
  · unfold Block.addPredecessor
    split <;> rfl
  · unfold Block.addPredecessor
    split <;> rfl

theorem detach (h : Labelled names g) (id : BlockId) : Labelled names (g.detach id) :=
  foldl (fun _ s hg => hg.touchBlock (f := Block.erasePredecessor id) s (fun _ => rfl)
    fun _ => rfl) _ h

theorem editCalls (h : Labelled names g) (k : FunctionId) (f : List Call → List Call) :
    Labelled names (g.editCalls k f) := by
  unfold FlowGraph.editCalls
  dsimp only
  refine foldl (fun g id hg => hg.attach id) _ ?_
  exact (foldl (fun g id hg => hg.detach id) _ h).of_slots rfl

theorem forgetIn (heir : Option BlockId) (k : FunctionId) (h : Labelled names g) :
    Labelled names (forgetIn id heir g k) := by
  unfold FlowGraph.forgetIn
  dsimp only
  split
  · exact (h.editCalls _ _).of_slots rfl
  · exact h.of_slots rfl

theorem redirectIn {old new : BlockId} (k : FunctionId) (h : Labelled names g) :
    Labelled names (redirectIn old new g k) := by
  unfold FlowGraph.redirectIn
  dsimp only
  split
  · exact (h.editCalls _ _).of_slots rfl
  · exact h.of_slots rfl

theorem isControl_retargetMarker (old new : String) (i : Instruction) :
    (retargetMarker old new i).isControl = i.isControl := by cases i <;> rfl

theorem mapBodies (h : Labelled names g) {f : Instruction → Instruction}
    (hf : ∀ i, (f i).isControl = i.isControl) : Labelled names (g.mapBodies f) := by
  refine ⟨?_, fun id b hb => ?_⟩
  · rw [← h.names]
    simp only [FlowGraph.names, FlowGraph.mapBodies, Array.map_map]
    congr 1
    funext slot
    cases slot <;> rfl
  · rw [block?_mapBodies] at hb
    obtain ⟨b', hb', rfl⟩ := Option.map_eq_some_iff.1 hb
    intro i hi
    obtain ⟨j, hj, rfl⟩ := List.mem_map.1 hi
    rw [hf]
    exact h.straight id b' hb' j hj

/-- The names after a slot was emptied. -/
theorem dropBlock (h : Labelled names g) (id : BlockId) :
    Labelled (names.setIfInBounds id none) (g.dropBlock id) := by
  refine ⟨?_, fun j b hb => ?_⟩
  · rw [← h.names]
    refine Array.ext_getElem? fun i => ?_
    simp only [FlowGraph.names, FlowGraph.dropBlock, Array.getElem?_map,
      Array.getElem?_setIfInBounds, Array.size_map]
    split
    · split <;> rfl
    · rfl
  · rw [block?_dropBlock] at hb
    split at hb
    · cases hb
    · exact h.straight j b hb

/-- The names after a block was added. -/
theorem addBlock (h : Labelled names g) {b : Block} (hb : b.Straight) :
    Labelled (names.push (some b.name)) (g.addBlock b) := by
  refine ⟨?_, fun j b' hb' => ?_⟩
  · rw [← h.names]
    simp [FlowGraph.names, FlowGraph.addBlock]
  · rw [block?_addBlock] at hb'
    split at hb'
    · cases hb'
      exact hb
    · exact h.straight j b' hb'

end Labelled

/-! ## Edits that leave the names alone -/

theorem labelled_block (id : BlockId) : Maintains (Labelled names) (Edit.block id) := by
  refine Maintains.get.bind fun g => ?_
  split
  · exact .pure _
  · exact .throw _

theorem labelled_function (k : FunctionId) : Maintains (Labelled names) (Edit.function k) := by
  refine Maintains.get.bind fun g => ?_
  split
  · exact .pure _
  · exact .throw _

/-- A change that leaves the blocks alone. -/
theorem labelled_modify {f : FlowGraph → FlowGraph} (hf : ∀ g, (f g).slots = g.slots) :
    Maintains (Labelled names) (modify f : Edit Unit) := .modify fun g hg => hg.of_slots (hf g)

/-- A change of a block that leaves its name and its body alone. -/
theorem labelled_modifyBlock (id : BlockId) {f : Block → Block}
    (hname : ∀ b, (f b).name = b.name) (hbody : ∀ b, (f b).body = b.body) :
    Maintains (Labelled names) (modify (·.modifyBlock id f) : Edit Unit) :=
  .modify fun _ hg => hg.touchBlock id hname hbody

theorem labelled_setBody (id : BlockId) {body : List Instruction}
    (hbody : ∀ i ∈ body, i.isControl = false) : Maintains (Labelled names) (setBody id body) :=
  (labelled_block id).bind fun _ => .modify fun _ hg => hg.modifyBlock id (fun _ => rfl)
    fun _ _ => hbody

theorem labelled_setTerminator (id : BlockId) (t : Terminator) :
    Maintains (Labelled names) (setTerminator id t) := by
  refine Maintains.bind (.forIn fun target _ => (labelled_block target).bind fun _ => .pure _)
    fun _ => ?_
  refine Maintains.bind (.modify fun _ hg => hg.detach id) fun _ => ?_
  refine (labelled_block id).bind fun _ => ?_
  exact .bind (labelled_modifyBlock id (fun _ => rfl) fun _ => rfl) fun _ =>
    .modify fun _ hg => hg.attach id

theorem labelled_closeBlock (id : BlockId) : Maintains (Labelled names) (closeBlock id) :=
  (labelled_block id).bind fun _ => labelled_modifyBlock id (fun _ => rfl) fun _ => rfl

theorem labelled_setFirst (id : BlockId) : Maintains (Labelled names) (setFirst id) :=
  (labelled_block id).bind fun _ => labelled_modify fun _ => rfl

theorem labelled_setLast (id : BlockId) : Maintains (Labelled names) (setLast id) :=
  (labelled_block id).bind fun _ => labelled_modify fun _ => rfl

theorem labelled_setLine (id : BlockId) (line : Nat) :
    Maintains (Labelled names) (setLine id line) :=
  (labelled_block id).bind fun _ => labelled_modifyBlock id (fun _ => rfl) fun _ => rfl

theorem labelled_addFunction (name : String) (params : List (String × ValueType))
    (returnType : Option ValueType) :
    Maintains (Labelled names) (addFunction name params returnType) :=
  fun _ hg => hg.of_slots rfl

theorem labelled_setFunctionEntry (k : FunctionId) (entry : BlockId) :
    Maintains (Labelled names) (setFunctionEntry k entry) :=
  (labelled_function k).bind fun _ => (labelled_block entry).bind fun _ =>
    labelled_modify fun _ => rfl

theorem labelled_registerCall (k : FunctionId) (caller returnTo : BlockId) (saved : Nat) :
    Maintains (Labelled names) (registerCall k caller returnTo saved) :=
  (labelled_function k).bind fun _ => (labelled_block caller).bind fun _ =>
    (labelled_block returnTo).bind fun _ => .modify fun _ hg => hg.editCalls k _

theorem labelled_severPredecessor (id : BlockId) (gone : Block) (heir : Option BlockId)
    (pred : BlockId) : Maintains (Labelled names) (severPredecessor id gone heir pred) := by
  refine Maintains.get.bind fun g => ?_
  split
  · exact .pure _
  · exact (labelled_setTerminator _ _).bind fun _ => .pure _

theorem labelled_installHeir (function : Option FunctionId) (heir : BlockId) :
    Maintains (Labelled names) (installHeir function heir) := by
  refine (labelled_block heir).bind fun b =>
    .bind (labelled_modifyBlock heir (fun _ => rfl) fun _ => rfl) fun _ => ?_
  split
  · split
    · exact labelled_modify fun _ => rfl
    · exact .pure _
  · exact .pure _

/-- **Redirecting a block** changes no name. -/
theorem labelled_redirect (old new : BlockId) : Maintains (Labelled names) (redirect old new) := by
  refine (labelled_block old).bind fun bo => (labelled_block new).bind fun bn =>
    Maintains.get.bind fun g => (Maintains.forIn fun pred _ => ?_).bind fun _ => ?_
  · exact (labelled_block pred).bind fun b => (labelled_setTerminator _ _).bind fun _ => .pure _
  · refine Maintains.bind (.modify fun g hg =>
      hg.mapBodies (Labelled.isControl_retargetMarker bo.name bn.name)) fun _ => ?_
    exact Maintains.bind (.modify fun g hg => .foldl (fun _ k => .redirectIn k) _ hg) fun _ =>
      labelled_modify fun _ => rfl

/-! ## Edits that empty a slot -/

/-- The edit turns the names into others if it succeeds, and leaves them alone if it fails. -/
def Turns (names names' : Array (Option String)) (x : Edit Unit) : Prop :=
  ∀ g, Labelled names g →
    Labelled (match (outcome x g).1 with | .ok _ => names' | .error _ => names) (outcome x g).2

namespace Turns

variable {α : Type}

theorem throw (e : Error) : Turns names names' (throw e) := fun _ hg => hg

theorem modify {f : FlowGraph → FlowGraph} (hf : ∀ g, Labelled names g → Labelled names' (f g)) :
    Turns names names' (modify f : Edit Unit) := hf

/-- Edits before that leave the names alone make no difference. -/
theorem bind {x : Edit α} {f : α → Edit Unit} (hx : Maintains (Labelled names) x)
    (hf : ∀ a, Turns names names' (f a)) : Turns names names' (x >>= f) := by
  intro g hg
  have hmiddle := hx g hg
  rcases hrun : outcome x g with ⟨r, g'⟩
  rw [hrun] at hmiddle
  rw [outcome_bind, hrun]
  cases r with
  | error e => exact hmiddle
  | ok a => exact hf a g' hmiddle

/-- The block that is looked up has no control instructions in its body. -/
theorem block {id : BlockId} {f : Block → Edit Unit}
    (hf : ∀ b, b.Straight → Turns names names' (f b)) :
    Turns names names' (Edit.block id >>= f) := by
  intro g hg
  cases hb : g.block? id with
  | none =>
      rw [outcome_bind, outcome_block_none hb]
      exact hg
  | some b =>
      rw [outcome_bind_ok (outcome_block hb)]
      exact hf b (hg.straight id b hb) g hg

theorem guarded {c : Prop} [Decidable c] {x y : Edit Unit}
    (hx : Turns names names' y → Turns names names' x) (hy : Turns names names' y) :
    Turns names names' (if c then x else y) := by
  split
  · exact hx hy
  · exact hy

end Turns

/-- **Removing a block** takes its name away, and no other. -/
theorem turns_removeNode (id : BlockId) :
    Turns names (names.setIfInBounds id none) (removeNode id) := by
  refine .bind (labelled_block id) fun gone => ?_
  dsimp only
  refine .guarded (fun hrest => .bind (.throw _) fun _ => hrest) ?_
  refine .bind (.modify fun _ hg => hg.detach id) fun _ =>
    .bind (.foldlM (labelled_severPredecessor id gone)) fun heir =>
    .bind (.modify fun _ hg => .foldl (fun _ k => .forgetIn heir k) _ hg) fun _ => ?_
  cases heir with
  | none =>
      exact .bind (labelled_modify fun _ => rfl) fun _ => .modify fun _ hg => hg.dropBlock id
  | some h =>
      exact .bind (labelled_installHeir gone.function h) fun _ =>
        .bind (labelled_modify fun _ => rfl) fun _ => .modify fun _ hg => hg.dropBlock id

/-- **Merging a block** into another takes its name away, and no other. -/
theorem turns_mergeInto (into absorbed : BlockId) :
    Turns names (names.setIfInBounds absorbed none) (mergeInto into absorbed) := by
  unfold mergeInto
  split
  · exact .throw _
  · refine .block fun gone hgone => ?_
    refine .bind (labelled_setTerminator _ _) fun _ =>
      .bind (.modify fun _ hg => hg.detach absorbed) fun _ =>
      .bind (labelled_modifyBlock absorbed (fun _ => rfl) fun _ => rfl) fun _ =>
      .bind (labelled_modify fun _ => rfl) fun _ => .bind (.modify fun g hg => ?_) fun _ =>
      .bind (labelled_setTerminator _ _) fun _ => .modify fun _ hg => hg.dropBlock absorbed
    refine hg.modifyBlock into (fun _ => rfl) fun b hb i hi => ?_
    rcases List.mem_append.1 hi with hi | hi
    · exact hb i hi
    · exact hgone i hi

end FlowGraph
end FlowVerifier
