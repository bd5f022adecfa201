import FlowVerifier.Proofs.Flow.Construction
import FlowVerifier.Proofs.Flow.Names

/-!
# Writing a block at once or step by step

`setInstructions` reads the control instructions of a list as a whole before it writes the
block.  `pushInstruction` takes one instruction at a time: it closes the block behind a jump
or a return, and keeps a conditional jump until the jump of its other side comes.

* `fill` is the graph in which a block is written so far, and `outcome_pushInstruction_open`
  and its neighbours say what one more instruction does to it.
* `outcome_pushAll_suffix` compares the control instructions, form by form, with what
  `parseSuffix` reads.
* `setInstructions_iff_pushAll`: on a block that is not begun, both ways succeed for the same
  lists and give the same graph.
-/

namespace FlowVerifier

/-- Nothing is written in the block yet. -/
structure Block.Blank (b : Block) : Prop where
  body : b.body = []
  terminator : b.terminator = .finish
  closed : b.closed = false
  pending : b.pending = none

/-- The block with another body and another state of its writing. -/
def Block.filled (body : List Instruction) (closed : Bool)
    (pending : Option (Comparison × BlockId)) (b : Block) : Block :=
  { b with body, closed, pending }

namespace FlowGraph

variable {g g' : FlowGraph} {id i j : BlockId} {b : Block} {f h : Block → Block}
  {body : List Instruction} {closed : Bool} {pending : Option (Comparison × BlockId)}

/-! ## Changes of blocks -/

theorem modifyBlock_modifyBlock (g : FlowGraph) (id : BlockId) (f h : Block → Block) :
    (g.modifyBlock id f).modifyBlock id h = g.modifyBlock id (h ∘ f) := by
  have hslots : (g.slots.modify id (Option.map f)).modify id (Option.map h) =
      g.slots.modify id (Option.map (h ∘ f)) := by
    refine Array.ext_getElem? fun j => ?_
    simp only [Array.getElem?_modify]
    split
    · cases g.slots[j]? <;> simp
    · rfl
  simp only [modifyBlock, hslots]

theorem modifyBlock_comm (g : FlowGraph) (i j : BlockId) (hcomm : ∀ b, f (h b) = h (f b)) :
    (g.modifyBlock i f).modifyBlock j h = (g.modifyBlock j h).modifyBlock i f := by
  have hslots : (g.slots.modify i (Option.map f)).modify j (Option.map h) =
      (g.slots.modify j (Option.map h)).modify i (Option.map f) := by
    refine Array.ext_getElem? fun k => ?_
    simp only [Array.getElem?_modify]
    split <;> split <;> cases g.slots[k]? <;> simp [Function.comp_def, hcomm]
  simp only [modifyBlock, hslots]

/-- A change that leaves the block as it is. -/
theorem modifyBlock_eq_self (hb : g.block? id = some b) (hf : f b = b) :
    g.modifyBlock id f = g := by
  have hslots : g.slots.modify id (Option.map f) = g.slots := by
    refine Array.ext_getElem? fun k => ?_
    rw [Array.getElem?_modify]
    split
    · rename_i hk
      subst hk
      rw [Option.join_eq_some_iff.1 hb, Option.map_some, Option.map_some, hf]
    · rfl
  simp only [modifyBlock, hslots]

theorem idOf?_modifyBlock (hf : ∀ b, (f b).name = b.name) (g : FlowGraph) (id : BlockId)
    (name : String) : (g.modifyBlock id f).idOf? name = g.idOf? name := by
  have hsize : (g.modifyBlock id f).slots.size = g.slots.size := Array.size_modify ..
  have hnames : ∀ k, ((g.modifyBlock id f).block? k).any (·.name == name) =
      (g.block? k).any (·.name == name) := by
    intro k
    rw [block?_modifyBlock]
    split
    · cases g.block? k <;> simp [hf]
    · rfl
  simp only [idOf?, hsize, hnames]

/-! ## A block that is being written -/

/-- The graph in which the block is written so far. -/
def fill (g : FlowGraph) (id : BlockId) (body : List Instruction) (closed : Bool)
    (pending : Option (Comparison × BlockId)) : FlowGraph :=
  g.modifyBlock id (Block.filled body closed pending)

theorem block?_fill (hb : g.block? id = some b) :
    (g.fill id body closed pending).block? id = some (b.filled body closed pending) := by
  rw [fill, block?_modifyBlock, if_pos rfl, hb]
  rfl

theorem contains_fill (g : FlowGraph) (id j : BlockId) :
    (g.fill id body closed pending).contains j = g.contains j :=
  contains_modifyBlock g id j _

theorem idOf?_fill (g : FlowGraph) (id : BlockId) (name : String) :
    (g.fill id body closed pending).idOf? name = g.idOf? name :=
  idOf?_modifyBlock (f := Block.filled body closed pending) (fun _ => rfl) g id name

/-- A block that is new is not the one that is being written. -/
theorem addBlock_fill (hid : g.contains id = true) (b : Block) :
    (g.fill id body closed pending).addBlock b = (g.addBlock b).fill id body closed pending := by
  obtain ⟨_, hb⟩ := contains_iff.1 hid
  have hlt : id < g.slots.size := lt_size_of_block? hb
  have hslots : (g.slots.modify id (Option.map (Block.filled body closed pending))).push (some b) =
      (g.slots.push (some b)).modify id (Option.map (Block.filled body closed pending)) := by
    refine Array.ext_getElem? fun k => ?_
    simp only [Array.getElem?_modify, Array.getElem?_push, Array.size_modify]
    by_cases hk : k = g.slots.size
    · rw [if_pos hk, if_pos hk, if_neg fun heq => Nat.ne_of_lt hlt (heq.trans hk)]
    · rw [if_neg hk, if_neg hk]
  simp only [fill, modifyBlock, addBlock, hslots]

/-- What is written in the block already. -/
theorem fill_self (hb : g.block? id = some b) : g.fill id b.body b.closed b.pending = g :=
  modifyBlock_eq_self hb rfl

/-- At first nothing is written. -/
theorem fill_blank (hb : g.block? id = some b) (hblank : b.Blank) :
    g.fill id [] false none = g := by
  rw [← hblank.body, ← hblank.closed, ← hblank.pending, fill_self hb]

/-- What is written last counts. -/
theorem fill_modifyBlock {body' : List Instruction} {closed' : Bool}
    {pending' : Option (Comparison × BlockId)}
    (hf : ∀ b : Block, f (b.filled body closed pending) = b.filled body' closed' pending') :
    (g.fill id body closed pending).modifyBlock id f = g.fill id body' closed' pending' := by
  rw [fill, modifyBlock_modifyBlock]
  exact congrArg (g.modifyBlock id) (funext hf)

theorem filled_addPredecessor (k : BlockId) (b : Block) :
    (b.addPredecessor k).filled body closed pending =
      (b.filled body closed pending).addPredecessor k := by
  unfold Block.addPredecessor Block.filled
  dsimp only
  split <;> rfl

theorem successors_fill (g : FlowGraph) (id k : BlockId) :
    (g.fill id body closed pending).successors k = g.successors k := by
  refine successors_congr_exits ?_ fun _ => rfl
  rw [fill, bare?_modifyBlock]
  split
  · unfold bare?
    cases g.block? k <;> rfl
  · rfl

/-- Changes of lists do not see what is written. -/
theorem foldl_modifyBlock_fill (hcomm : ∀ b : Block,
      (f b).filled body closed pending = f (b.filled body closed pending))
    (targets : List BlockId) (g : FlowGraph) :
    targets.foldl (fun g s => g.modifyBlock s f) (g.fill id body closed pending) =
      (targets.foldl (fun g s => g.modifyBlock s f) g).fill id body closed pending := by
  induction targets generalizing g with
  | nil => rfl
  | cons s targets ih =>
      rw [List.foldl_cons, List.foldl_cons, ← ih]
      exact congrArg (targets.foldl fun g s => g.modifyBlock s f)
        (modifyBlock_comm g id s hcomm)

theorem attach_fill (g : FlowGraph) (id k : BlockId) :
    (g.fill id body closed pending).attach k = (g.attach k).fill id body closed pending := by
  unfold attach
  rw [successors_fill]
  exact foldl_modifyBlock_fill (filled_addPredecessor k) _ g

theorem detach_fill (g : FlowGraph) (id k : BlockId) :
    (g.fill id body closed pending).detach k = (g.detach k).fill id body closed pending := by
  unfold detach
  rw [successors_fill]
  exact foldl_modifyBlock_fill (f := Block.erasePredecessor k) (fun _ => rfl) _ g

/-- Another terminator does not see what is written. -/
theorem withTerminator_fill (g : FlowGraph) (id : BlockId) (t : Terminator) :
    (g.fill id body closed pending).withTerminator id t =
      (g.withTerminator id t).fill id body closed pending := by
  have hcomm : ((g.detach id).fill id body closed pending).modifyBlock id
      (fun b => { b with terminator := t }) =
        ((g.detach id).modifyBlock id fun b => { b with terminator := t }).fill id body closed
          pending := modifyBlock_comm _ id id fun _ => rfl
  rw [withTerminator, detach_fill, hcomm, attach_fill, ← withTerminator]

/-- The terminator of a block that is not begun. -/
theorem withTerminator_finish (hb : g.block? id = some b) (hblank : b.Blank) :
    g.withTerminator id .finish = g := by
  have hsucc : g.successors id = [] := by
    simp [successors, hb, hblank.terminator, Terminator.isReturn, Terminator.targets]
  have hdetach : g.detach id = g := by rw [detach, hsucc, List.foldl_nil]
  have hsame : g.modifyBlock id (fun b => { b with terminator := .finish }) = g :=
    modifyBlock_eq_self hb (by rw [← hblank.terminator])
  rw [withTerminator, hdetach, hsame, attach, hsucc, List.foldl_nil]

/-! ## Blocks that are referred to -/

/-- The blocks of `g` are blocks of `g'`. -/
def Within (g g' : FlowGraph) : Prop := ∀ j b, g.block? j = some b → g'.block? j = some b

theorem Within.contains (hin : Within g g') (hj : g.contains j = true) :
    g'.contains j = true := by
  obtain ⟨b, hb⟩ := contains_iff.1 hj
  exact contains_iff.2 ⟨b, hin j b hb⟩

/-- Referring to the name gives the block `i` and leaves `g'`, whatever is written so far in
another block. -/
structure Placed (g : FlowGraph) (name : String) (i : BlockId) (g' : FlowGraph) : Prop where
  live : g'.contains i = true
  within : Within g g'
  run : outcome (placeholder name) g = (.ok i, g')
  filled : ∀ {id body closed pending}, g.contains id = true →
    outcome (placeholder name) (g.fill id body closed pending) =
      (.ok i, g'.fill id body closed pending)

theorem outcome_placeholder (g : FlowGraph) (name : String) :
    outcome (placeholder name) g = match g.idOf? name with
      | some i => (.ok i, g)
      | none => (.ok g.slots.size, g.addBlock { name, populated := false }) := by
  unfold placeholder
  rw [outcome_bind_ok (outcome_get g)]
  cases g.idOf? name <;> rfl

/-- **Referring to a block** finds or creates it. -/
theorem exists_placed (g : FlowGraph) (name : String) : ∃ i g', Placed g name i g' := by
  cases hname : g.idOf? name with
  | some i =>
      obtain ⟨b, hb, -⟩ := name_of_idOf? hname
      refine ⟨i, g, ?_, fun _ _ hb => hb, by rw [outcome_placeholder, hname],
        fun _ => by rw [outcome_placeholder, idOf?_fill, hname]⟩
      exact contains_of_bare? hb
  | none =>
      refine ⟨g.slots.size, g.addBlock { name, populated := false }, ?_, fun j b hb => ?_,
        by rw [outcome_placeholder, hname], fun {id body closed pending} hid => ?_⟩
      · exact contains_iff.2 ⟨_, by rw [block?_addBlock, if_pos rfl]⟩
      · rw [block?_addBlock, if_neg (Nat.ne_of_lt (lt_size_of_block? hb))]
        exact hb
      · have hsize : (g.fill id body closed pending).slots.size = g.slots.size :=
          Array.size_modify ..
        rw [outcome_placeholder, idOf?_fill, hname]
        simp only [addBlock_fill hid, hsize]

/-! ## One more instruction -/

/-- The instructions of a list one after the other. -/
def pushAll (id : BlockId) (l : List Instruction) : Edit Unit := l.forM (pushInstruction id)

theorem pushAll_cons (id : BlockId) (i : Instruction) (l : List Instruction) :
    pushAll id (i :: l) = (do pushInstruction id i; pushAll id l) := rfl

theorem outcome_pushInstruction_body (hb : g.block? id = some b) {i : Instruction}
    (hi : i.isControl = false) :
    outcome (pushInstruction id i) (g.fill id body false none) =
      (.ok (), g.fill id (body ++ [i]) false none) := by
  have hwrite : (g.fill id body false none).modifyBlock id
      (fun b => { b with body := b.body ++ [i] }) = g.fill id (body ++ [i]) false none :=
    fill_modifyBlock fun _ => rfl
  unfold pushInstruction
  rw [outcome_bind_ok (outcome_block (block?_fill hb))]
  cases i with
  | jumpIf test block => exact absurd hi (by simp [Instruction.isControl])
  | jump block => exact absurd hi (by simp [Instruction.isControl])
  | ret value => exact absurd hi (by simp [Instruction.isControl])
  | _ => exact congrArg (Prod.mk (Except.ok ())) hwrite

/-- Instructions without control are appended. -/
theorem outcome_pushAll_append (hb : g.block? id = some b) {l : List Instruction}
    (hl : ∀ i ∈ l, i.isControl = false) (body rest : List Instruction) :
    outcome (pushAll id (l ++ rest)) (g.fill id body false none) =
      outcome (pushAll id rest) (g.fill id (body ++ l) false none) := by
  induction l generalizing body with
  | nil => rw [List.nil_append, List.append_nil]
  | cons i l ih =>
      have hi : i.isControl = false := hl i (List.mem_cons_self ..)
      rw [List.cons_append, pushAll_cons, outcome_bind_ok (outcome_pushInstruction_body hb hi),
        ih fun j hj => hl j (List.mem_cons_of_mem _ hj), List.append_assoc, List.singleton_append]

/-- Nothing follows what closes a block. -/
theorem outcome_pushInstruction_closed (hb : g.block? id = some b) (i : Instruction) :
    outcome (pushInstruction id i) (g.fill id body true pending) =
      (.error (.blockClosed b.name), g.fill id body true pending) := by
  unfold pushInstruction
  rw [outcome_bind_ok (outcome_block (block?_fill hb))]
  rfl

/-- Only a jump follows a conditional jump. -/
theorem outcome_pushInstruction_waiting (hb : g.block? id = some b) (body : List Instruction)
    {i : Instruction} (hi : ∀ name, i ≠ .jump name) (test : Comparison × BlockId) :
    ∃ e, outcome (pushInstruction id i) (g.fill id body false (some test)) =
      (.error e, g.fill id body false (some test)) := by
  unfold pushInstruction
  rw [outcome_bind_ok (outcome_block (block?_fill hb))]
  cases i with
  | jump name => exact absurd rfl (hi name)
  | _ => exact ⟨_, rfl⟩

/-- Giving the block that is being written its terminator, and closing it. -/
theorem outcome_setTerminator_closeBlock (hb : g.block? id = some b) (body : List Instruction)
    {t : Terminator} (ht : ∀ target ∈ t.targets, g.contains target = true) :
    outcome (do setTerminator id t; closeBlock id) (g.fill id body false none) =
      (.ok (), (g.withTerminator id t.normalize).fill id body true none) := by
  have hid : g.contains id = true := contains_iff.2 ⟨b, hb⟩
  have htargets : ∀ target ∈ t.normalize.targets,
      (g.fill id body false none).contains target = true := by
    intro target htarget
    rw [contains_fill]
    exact ht target (Terminator.mem_targets_normalize.1 htarget)
  have hclose : ((g.withTerminator id t.normalize).fill id body false none).modifyBlock id
      (fun b => { b with closed := true }) =
        (g.withTerminator id t.normalize).fill id body true none := fill_modifyBlock fun _ => rfl
  rw [outcome_bind_ok (outcome_setTerminator (by rwa [contains_fill]) htargets),
    withTerminator_fill]
  obtain ⟨b', hb'⟩ := contains_iff.1 ((contains_withTerminator g id id t.normalize).trans hid)
  unfold closeBlock
  rw [outcome_bind_ok (outcome_block (block?_fill hb')), outcome_modify, hclose]

/-- A conditional jump waits for the jump of its other side. -/
theorem outcome_pushInstruction_jumpIf (hb : g.block? id = some b) (body : List Instruction)
    (test : Comparison) {name : String} (hplaced : Placed g name i g') :
    outcome (pushInstruction id (.jumpIf test name)) (g.fill id body false none) =
      (.ok (), g'.fill id body false (some (test, i))) := by
  have hwait : (g'.fill id body false none).modifyBlock id
      (fun b => { b with pending := some (test, i) }) = g'.fill id body false (some (test, i)) :=
    fill_modifyBlock fun _ => rfl
  unfold pushInstruction
  rw [outcome_bind_ok (outcome_block (block?_fill hb))]
  simp only [Block.filled, Option.isSome_none, Bool.false_eq_true, if_false]
  rw [outcome_bind_ok (hplaced.filled (contains_iff.2 ⟨b, hb⟩)), outcome_modify, hwait]

/-- The terminator that a jump completes. -/
def completed (pending : Option (Comparison × BlockId)) (target : BlockId) : Terminator :=
  match pending with
  | some (test, onTrue) => .branch test onTrue target
  | none => .jump target

theorem outcome_pushInstruction_jump (hb : g.block? id = some b) (body : List Instruction)
    {pending : Option (Comparison × BlockId)}
    (hpending : ∀ test onTrue, pending = some (test, onTrue) → g.contains onTrue = true)
    {name : String} (hplaced : Placed g name j g') :
    outcome (pushInstruction id (.jump name)) (g.fill id body false pending) =
      (.ok (), (g'.withTerminator id (completed pending j).normalize).fill id body true none) := by
  have hopen : (g'.fill id body false pending).modifyBlock id
      (fun b => { b with pending := none }) = g'.fill id body false none :=
    fill_modifyBlock fun _ => rfl
  have hlive : ∀ target ∈ (completed pending j).targets, g'.contains target = true := by
    intro target htarget
    unfold completed at htarget
    split at htarget
    · rename_i test onTrue
      simp only [Terminator.targets, List.mem_cons, List.not_mem_nil, or_false] at htarget
      rcases htarget with rfl | rfl
      · exact hplaced.within.contains (hpending test _ rfl)
      · exact hplaced.live
    · simp only [Terminator.targets, List.mem_singleton] at htarget
      exact htarget ▸ hplaced.live
  unfold pushInstruction
  rw [outcome_bind_ok (outcome_block (block?_fill hb))]
  simp only [Block.filled, Bool.false_eq_true, if_false]
  rw [outcome_bind_ok (hplaced.filled (contains_iff.2 ⟨b, hb⟩)), outcome_bind, outcome_modify]
  dsimp only
  rw [hopen]
  exact outcome_setTerminator_closeBlock (hplaced.within _ _ hb) body hlive

theorem outcome_pushInstruction_ret (hb : g.block? id = some b) (body : List Instruction)
    (value : Option Operand) :
    outcome (pushInstruction id (.ret value)) (g.fill id body false none) =
      if b.function.isNone then
        (.error (.returnOutsideFunction b.name), g.fill id body false none)
      else (.ok (), (g.withTerminator id (.ret value)).fill id body true none) := by
  unfold pushInstruction
  rw [outcome_bind_ok (outcome_block (block?_fill hb))]
  simp only [Block.filled, Option.isSome_none, Bool.false_eq_true, if_false]
  by_cases hnone : b.function.isNone = true
  · simp only [hnone, if_true]
    rfl
  · simp only [hnone, Bool.false_eq_true, if_false]
    exact outcome_setTerminator_closeBlock (t := .ret value) hb body (by simp [Terminator.targets])

/-! ## All control instructions -/

/-- The terminator that control instructions stand for. -/
def readSuffix (owner : Block) (rest : List Instruction) : Edit Terminator :=
  match parseSuffix rest with
  | .error fault => throw (.malformedBlock owner.name fault)
  | .ok suffix => resolveSuffix owner suffix

/-- Writing a block at once: the control instructions are read first. -/
theorem outcome_setInstructions (hb : g.block? id = some b) (l : List Instruction) :
    outcome (setInstructions id l) g = outcome (do
      let t ← readSuffix b (l.dropWhile (!·.isControl))
      setTerminator id t
      modify (·.fill id (l.takeWhile (!·.isControl)) (t != .finish) none)) g := by
  unfold setInstructions readSuffix
  rw [outcome_bind_ok (outcome_block hb)]
  dsimp only
  cases parseSuffix (l.dropWhile (!·.isControl)) <;> rfl

/-- The edit succeeds, and no conditional jump waits in the block. -/
def Settles (id : BlockId) (x : Edit Unit) (g g' : FlowGraph) : Prop :=
  outcome x g = (.ok (), g') ∧ ∃ b, g'.block? id = some b ∧ b.pending = none

theorem not_settles_of_error {x : Edit Unit} {e : Error} {left : FlowGraph}
    (h : outcome x g = (.error e, left)) : ¬ Settles id x g g' := by
  rintro ⟨hok, -⟩
  rw [h] at hok
  exact absurd (congrArg Prod.fst hok) (by simp)

/-- Nothing follows the instruction that closes the block. -/
theorem not_settles_of_closed {i next : Instruction} {t : Terminator} (hb : g'.block? id = some b)
    (hpush : outcome (pushInstruction id i) g =
      (.ok (), (g'.withTerminator id t).fill id body true none)) (rest : List Instruction)
    (r : FlowGraph) : ¬ Settles id (pushAll id (i :: next :: rest)) g r := by
  have hid : (g'.withTerminator id t).contains id = true :=
    (contains_withTerminator g' id id t).trans (contains_iff.2 ⟨b, hb⟩)
  obtain ⟨b', hb'⟩ := contains_iff.1 hid
  have hstop : outcome (pushAll id (i :: next :: rest)) g =
      (.error (.blockClosed b'.name), (g'.withTerminator id t).fill id body true none) := by
    rw [pushAll_cons, outcome_bind_ok hpush, pushAll_cons]
    exact outcome_bind_error (outcome_pushInstruction_closed hb' next)
  exact not_settles_of_error hstop

/-- The control instructions mean a terminator, and pushing them gives it to the block. -/
structure Reads (g : FlowGraph) (id : BlockId) (owner : Block) (body rest : List Instruction)
    (t : Terminator) (g' : FlowGraph) : Prop where
  read : outcome (readSuffix owner rest) g = (.ok t, g')
  within : Within g g'
  live : ∀ target ∈ t.targets, g'.contains target = true
  pushed : outcome (pushAll id rest) (g.fill id body false none) =
    (.ok (), (g'.withTerminator id t.normalize).fill id body (t != .finish) none)

/-- The control instructions mean nothing, and pushing them fails or leaves a conditional
jump waiting. -/
structure Refuses (g : FlowGraph) (id : BlockId) (owner : Block) (body rest : List Instruction) :
    Prop where
  unread : ∃ e g', outcome (readSuffix owner rest) g = (.error e, g')
  unsettled : ∀ g', ¬ Settles id (pushAll id rest) (g.fill id body false none) g'

/-- A jump ends a list. -/
theorem suffix_jump (hb : g.block? id = some b) (name : String) (rest : List Instruction) :
    (∃ t g', Reads g id b body (.jump name :: rest) t g') ∨
      Refuses g id b body (.jump name :: rest) := by
  obtain ⟨i, g', hplaced⟩ := exists_placed g name
  have hnone : ∀ test onTrue, (none : Option (Comparison × BlockId)) = some (test, onTrue) →
      g.contains onTrue = true := fun _ _ h => absurd h (by simp)
  have hpush := outcome_pushInstruction_jump hb body hnone hplaced
  cases rest with
  | nil =>
      refine .inl ⟨.jump i, g', ?_, hplaced.within,
        by simpa [Terminator.targets] using hplaced.live, ?_⟩
      · exact outcome_bind_ok hplaced.run
      · rw [pushAll_cons, outcome_bind_ok hpush]
        rfl
  | cons next rest =>
      refine .inr ⟨⟨_, _, rfl⟩, fun r => ?_⟩
      exact not_settles_of_closed (hplaced.within _ _ hb) hpush rest r

/-- A return ends a list, and belongs to a function. -/
theorem suffix_ret (hb : g.block? id = some b) (value : Option Operand)
    (rest : List Instruction) :
    (∃ t g', Reads g id b body (.ret value :: rest) t g') ∨
      Refuses g id b body (.ret value :: rest) := by
  have hpush := outcome_pushInstruction_ret hb body value
  cases rest with
  | cons next rest =>
      refine .inr ⟨⟨_, _, rfl⟩, fun r => ?_⟩
      split at hpush
      · exact not_settles_of_error (outcome_bind_error hpush)
      · exact not_settles_of_closed hb hpush rest r
  | nil =>
      have hread : outcome (readSuffix b [.ret value]) g =
          if b.function.isNone then (.error (.returnOutsideFunction b.name), g)
          else (.ok (.ret value), g) := by
        unfold readSuffix resolveSuffix
        simp only [parseSuffix]
        cases b.function.isNone <;> rfl
      split at hpush
      · rename_i hnone
        rw [if_pos hnone] at hread
        exact .inr ⟨⟨_, _, hread⟩, fun r => not_settles_of_error (outcome_bind_error hpush)⟩
      · rename_i howned
        rw [if_neg howned] at hread
        refine .inl ⟨.ret value, g, hread, fun _ _ hb => hb, by simp [Terminator.targets], ?_⟩
        rw [pushAll_cons, outcome_bind_ok hpush]
        rfl

/-- A conditional jump is followed by the jump of its other side, which ends a list. -/
theorem suffix_jumpIf (hb : g.block? id = some b) (test : Comparison) (name : String)
    (rest : List Instruction) :
    (∃ t g', Reads g id b body (.jumpIf test name :: rest) t g') ∨
      Refuses g id b body (.jumpIf test name :: rest) := by
  obtain ⟨i, g₁, hplaced₁⟩ := exists_placed g name
  have hpush₁ := outcome_pushInstruction_jumpIf hb body test hplaced₁
  have hb₁ := hplaced₁.within _ _ hb
  cases rest with
  | nil =>
      -- the conditional jump waits
      refine .inr ⟨⟨_, _, rfl⟩, fun r => ?_⟩
      rintro ⟨hrun, b', hb', hsettled⟩
      rw [pushAll_cons, outcome_bind_ok hpush₁] at hrun
      obtain rfl : g₁.fill id body false (some (test, i)) = r := congrArg Prod.snd hrun
      rw [block?_fill hb₁] at hb'
      cases hb'
      exact absurd hsettled (by simp [Block.filled])
  | cons next rest =>
      by_cases hnext : ∃ onFalse, next = .jump onFalse
      · obtain ⟨onFalse, rfl⟩ := hnext
        obtain ⟨j, g₂, hplaced₂⟩ := exists_placed g₁ onFalse
        have hwait : ∀ test' onTrue, some (test, i) = some (test', onTrue) →
            g₁.contains onTrue = true := fun _ _ h => by cases h; exact hplaced₁.live
        have hpush₂ := outcome_pushInstruction_jump hb₁ body hwait hplaced₂
        have hin : Within g g₂ := fun k c hc => hplaced₂.within k c (hplaced₁.within k c hc)
        cases rest with
        | nil =>
            refine .inl ⟨.branch test i j, g₂, ?_, hin, ?_, ?_⟩
            · exact (outcome_bind_ok hplaced₁.run).trans (outcome_bind_ok hplaced₂.run)
            · have hi : g₂.contains i = true := hplaced₂.within.contains hplaced₁.live
              simp [Terminator.targets, hi, hplaced₂.live]
            · rw [pushAll_cons, outcome_bind_ok hpush₁, pushAll_cons, outcome_bind_ok hpush₂]
              rfl
        | cons last rest =>
            have hskip : ∀ r, Settles id (pushAll id (.jumpIf test name :: .jump onFalse :: last ::
                rest)) (g.fill id body false none) r →
                Settles id (pushAll id (.jump onFalse :: last :: rest))
                  (g₁.fill id body false (some (test, i))) r := by
              rintro r ⟨hrun, hsettled⟩
              rw [pushAll_cons, outcome_bind_ok hpush₁] at hrun
              exact ⟨hrun, hsettled⟩
            exact .inr ⟨⟨_, _, rfl⟩, fun r hsettles =>
              not_settles_of_closed (hin _ _ hb) hpush₂ rest r (hskip r hsettles)⟩
      · have hno : ∀ onFalse, next ≠ .jump onFalse := fun onFalse h => hnext ⟨onFalse, h⟩
        obtain ⟨e, hstop⟩ := outcome_pushInstruction_waiting hb₁ body hno (test, i)
        have hunread : parseSuffix (.jumpIf test name :: next :: rest) = .error .controlInside := by
          cases next with
          | jump onFalse => exact absurd rfl (hno onFalse)
          | _ => rfl
        refine .inr ⟨⟨.malformedBlock b.name .controlInside, g, ?_⟩, fun r => ?_⟩
        · unfold readSuffix
          rw [hunread]
          rfl
        · have hrun : outcome (pushAll id (.jumpIf test name :: next :: rest))
              (g.fill id body false none) = (.error e, g₁.fill id body false (some (test, i))) := by
            rw [pushAll_cons, outcome_bind_ok hpush₁, pushAll_cons]
            exact outcome_bind_error hstop
          exact not_settles_of_error hrun

/-- **The control instructions of a list**, pushed one after the other, do what they mean as
a whole. -/
theorem suffix_cases (hb : g.block? id = some b) (hblank : b.Blank) (body l : List Instruction) :
    (∃ t g', Reads g id b body (l.dropWhile (!·.isControl)) t g') ∨
      Refuses g id b body (l.dropWhile (!·.isControl)) := by
  cases hrest : l.dropWhile (!·.isControl) with
  | nil =>
      refine .inl ⟨.finish, g, rfl, fun _ _ hb => hb, by simp [Terminator.targets], ?_⟩
      rw [show Terminator.finish.normalize = .finish from rfl, withTerminator_finish hb hblank]
      rfl
  | cons i rest =>
      have hcontrol : i.isControl = true := by
        have hhead := List.head?_dropWhile_not (fun i : Instruction => !i.isControl) l
        simpa [hrest] using hhead
      cases i with
      | jumpIf test name => exact suffix_jumpIf hb test name rest
      | jump name => exact suffix_jump hb name rest
      | ret value => exact suffix_ret hb value rest
      | _ => exact absurd hcontrol (by simp [Instruction.isControl])

/-! ## The two ways agree -/

/-- **Writing a block at once or step by step.**  On a block that is not begun, giving a list
of instructions succeeds exactly if pushing them one after the other does and no conditional
jump waits in the end, and both leave the same graph. -/
theorem setInstructions_iff_pushAll (hb : g.block? id = some b) (hblank : b.Blank)
    (l : List Instruction) (g' : FlowGraph) :
    (setInstructions id l).runOn g = (.ok (), g') ↔
      (l.forM (pushInstruction id)).runOn g = (.ok (), g') ∧
        ∃ b', g'.block? id = some b' ∧ b'.pending = none := by
  show outcome (setInstructions id l) g = _ ↔ Settles id (pushAll id l) g g'
  have hpushed : outcome (pushAll id l) g = outcome (pushAll id (l.dropWhile (!·.isControl)))
      (g.fill id (l.takeWhile (!·.isControl)) false none) := by
    have hbody : ∀ i ∈ l.takeWhile (!·.isControl), i.isControl = false := by
      intro i hi
      simpa using List.mem_takeWhile_imp hi
    have happend := outcome_pushAll_append hb hbody [] (l.dropWhile (!·.isControl))
    rwa [List.takeWhile_append_dropWhile, List.nil_append, fill_blank hb hblank] at happend
  rw [outcome_setInstructions hb]
  rcases suffix_cases hb hblank (l.takeWhile (!·.isControl)) l with
    ⟨t, r, hreads⟩ | hrefuses
  · have hid : r.contains id = true := contains_iff.2 ⟨b, hreads.within _ _ hb⟩
    obtain ⟨b', hb'⟩ := contains_iff.1 ((contains_withTerminator r id id t.normalize).trans hid)
    have hset := outcome_setTerminator hid fun target htarget =>
      hreads.live target (Terminator.mem_targets_normalize.1 htarget)
    rw [outcome_bind_ok hreads.read, outcome_bind_ok hset, outcome_modify, Settles, hpushed,
      hreads.pushed]
    refine ⟨fun h => ⟨h, ?_⟩, fun h => h.1⟩
    obtain rfl := congrArg Prod.snd h
    exact ⟨_, block?_fill hb', rfl⟩
  · obtain ⟨e, left, hunread⟩ := hrefuses.unread
    rw [outcome_bind_error hunread]
    refine iff_of_false (fun h => absurd (congrArg Prod.fst h) (by simp)) ?_
    rintro ⟨hrun, hsettled⟩
    exact hrefuses.unsettled g' ⟨hpushed ▸ hrun, hsettled⟩

/-- A graph with one block, in which nothing is written. -/
def unwritten : FlowGraph where
  slots := #[some { name := "a" }]
  first := some 0

/-- A value is shown, and then the block is left in one of two ways that do not exist. -/
def forked : List Instruction :=
  [.print (.var "x"), .jumpIf ⟨.var "x", .lt, .var "y"⟩ "below", .jump "above"]

/-- Both ways create the block `below` and then the block `above`. -/
theorem setInstructions_iff_pushAll_forked :
    unwritten.block? 0 = some { name := "a" } ∧ Block.Blank { name := "a" } ∧
      ∃ g', (setInstructions 0 forked).runOn unwritten = (.ok (), g') ∧
        (forked.forM (pushInstruction 0)).runOn unwritten = (.ok (), g') ∧
        g'.idOf? "below" = some 1 ∧ g'.idOf? "above" = some 2 ∧ g'.predecessors 2 = [0] := by
  have hblank : Block.Blank { name := "a" } := ⟨rfl, rfl, rfl, rfl⟩
  have hb : unwritten.block? 0 = some { name := "a" } := rfl
  have h := setInstructions_iff_pushAll hb hblank forked
  exact ⟨hb, hblank, _, by cbv, ((h _).1 (by cbv)).1, by cbv, by cbv, by cbv⟩

end FlowGraph
end FlowVerifier
