import FlowVerifier.Flow.Builder
import FlowVerifier.Proofs.Flow.Redirect
import Mathlib

/-!
# Graphs that edits make

Every graph that is made from the empty one, block by block, is valid, whether the
edits on the way succeed or fail.

* `Consistent` is the invariant: the graph is well formed, and a block that was only
  referred to belongs to no function.  Such a block does not return, so it can be taken
  over by a function without a change of edges.
* `Careful` says of an edit that it keeps the invariant, also where it fails, and that
  it fails with no defect.  It goes through an edit from part to part.
* `Construction` lists the edits that graphs are made by, and `Constructible` the
  graphs; `Drafted` are the drafts of programs.
* `constructible_valid` is the result.
-/

namespace FlowVerifier

/-- A block that is defined now. -/
def Block.adopted (isExit : Bool) (function : Option FunctionId) (b : Block) : Block :=
  { b with
    populated := true
    isExit := b.isExit || isExit
    function := function.or b.function }

namespace FlowGraph

variable {g g' : FlowGraph} {id i j : BlockId}

/-! ## The invariant -/

/-- The graph is well formed, and blocks that were only referred to belong to no
function. -/
structure Consistent (g : FlowGraph) : Prop where
  wellFormed : WellFormed g
  unowned : ∀ {id b}, g.bare? id = some b → b.populated = false → b.function = none

theorem consistent_empty : Consistent .empty := by
  have hnone : ∀ id, FlowGraph.empty.block? id = none := fun id => by simp [empty, block?]
  refine ⟨⟨fun i j => ?_, fun h => ?_, fun id h => ?_⟩, fun h => ?_⟩
  · simp [mem_predecessors_iff, successors, hnone]
  · simp [bare?, hnone] at h
  · simp [designated, empty] at h
  · simp [bare?, hnone] at h

/-- The change touches neither the edges of a block nor its owner. -/
def Harmless (f : Block → Block) : Prop :=
  ∀ b, (f b).predecessors = b.predecessors ∧ (f b).terminator = b.terminator ∧
    (f b).function = b.function ∧ (f b).populated = b.populated

theorem Consistent.modifyBlock (h : Consistent g) (id : BlockId) {f : Block → Block}
    (hf : Harmless f) : Consistent (g.modifyBlock id f) := by
  refine ⟨h.wellFormed.transport (predecessors_modifyBlock (fun b => (hf b).1) g id)
    (fun j => ?_) rfl rfl rfl, fun {j b'} hb' hpop => ?_⟩
  · rw [bare?_modifyBlock]
    split
    · unfold bare?
      cases g.block? j with
      | none => rfl
      | some b => simp [Block.bare, hf b]
    · rfl
  · rw [bare?_modifyBlock] at hb'
    split at hb'
    · obtain ⟨b, hb, rfl⟩ := Option.map_eq_some_iff.1 hb'
      obtain ⟨-, -, howner, hpopulated⟩ := hf b
      have hbare : g.bare? j = some b.bare := bare?_of_block? hb
      have hnone := h.unowned hbare (hpopulated.symm.trans hpop)
      exact howner.trans hnone
    · exact h.unowned hb' hpop

/-! ## New blocks -/

theorem block?_addBlock (g : FlowGraph) (b : Block) (j : BlockId) :
    (g.addBlock b).block? j = if j = g.slots.size then some b else g.block? j := by
  unfold addBlock block?
  rw [Array.getElem?_push]
  split <;> rfl

theorem block?_size (g : FlowGraph) : g.block? g.slots.size = none := by
  simp [block?]

theorem bare?_addBlock_cases {b b' : Block} (hb' : (g.addBlock b).bare? j = some b') :
    b' = b.bare ∨ g.bare? j = some b' := by
  unfold bare? at hb'
  rw [block?_addBlock] at hb'
  split at hb'
  · exact .inl (Option.some.inj hb').symm
  · exact .inr hb'

/-- A new block has no edges. -/
theorem WellFormed.addBlock (h : WellFormed g) {b : Block} (hpreds : b.predecessors = [])
    (hterm : b.terminator = .finish) : WellFormed (g.addBlock b) := by
  have hsucc : ∀ i, (g.addBlock b).successors i = g.successors i := by
    intro i
    unfold successors
    rw [block?_addBlock]
    by_cases hi : i = g.slots.size
    · subst hi
      rw [if_pos rfl, block?_size]
      simp [hterm, Terminator.isReturn, Terminator.targets]
    · rw [if_neg hi]
      rfl
  have hlists : ∀ j, (g.addBlock b).predecessors j = g.predecessors j := by
    intro j
    unfold predecessors
    rw [block?_addBlock]
    split
    · rename_i hj
      subst hj
      rw [block?_size]
      exact hpreds
    · rfl
  refine ⟨h.edges.transport hlists fun i _ => hsucc i, fun hb' => ?_, fun j hj => ?_⟩
  · rcases bare?_addBlock_cases hb' with rfl | hb'
    · rw [show b.bare.terminator = .finish from hterm]
      exact soundExit_finish _
    · exact h.exits hb'
  · obtain ⟨b', hb'⟩ := contains_iff.1 (h.roles j hj)
    refine contains_iff.2 ⟨b', ?_⟩
    rw [block?_addBlock, if_neg (Nat.ne_of_lt (lt_size_of_block? hb')), hb']

theorem Consistent.addBlock (h : Consistent g) {b : Block} (hpreds : b.predecessors = [])
    (hterm : b.terminator = .finish) (hpop : b.populated = false → b.function = none) :
    Consistent (g.addBlock b) := by
  refine ⟨h.wellFormed.addBlock hpreds hterm, fun hb' hp => ?_⟩
  rcases bare?_addBlock_cases hb' with rfl | hb'
  · exact hpop hp
  · exact h.unowned hb' hp

/-- The edges of a block that is taken over by a function. -/
theorem successors_adopted {b : Block} (hb : g.block? id = some b) (isExit : Bool)
    (function : Option FunctionId) :
    (g.modifyBlock id (Block.adopted isExit function)).successors id =
      if b.terminator.isReturn then g.returnSitesOf (function.or b.function)
      else b.terminator.targets := by
  unfold successors
  rw [block?_modifyBlock, if_pos rfl, hb]
  rfl

/-- **A block that is taken over** keeps the rules exactly if it does not return, or returns
to the same blocks as before. -/
theorem WellFormed.adopt_iff (h : WellFormed g) {b : Block} (hb : g.block? id = some b)
    (isExit : Bool) (function : Option FunctionId) :
    WellFormed (g.modifyBlock id (Block.adopted isExit function)) ↔
      (b.terminator.isReturn = true → ∀ j,
        j ∈ g.returnSitesOf (function.or b.function) ↔ j ∈ g.returnSitesOf b.function) := by
  have hlists := predecessors_modifyBlock (f := Block.adopted isExit function) (fun _ => rfl) g id
  have hself := successors_adopted hb isExit function
  have hold : g.successors id =
      if b.terminator.isReturn then g.returnSitesOf b.function else b.terminator.targets := by
    rw [successors, hb]
  have hother : ∀ i, i ≠ id →
      (g.modifyBlock id (Block.adopted isExit function)).successors i = g.successors i := by
    intro i hi
    refine successors_congr ?_ rfl
    rw [bare?_modifyBlock, if_neg (Ne.symm hi)]
  constructor
  · intro hwf hret j
    have hj := (hwf.edges id j).symm.trans (hlists j ▸ h.edges id j)
    simpa [hself, hold, hret] using hj
  · intro hsites
    have hmem : ∀ j, j ∈ (g.modifyBlock id (Block.adopted isExit function)).successors id ↔
        j ∈ g.successors id := by
      intro j
      rw [hself, hold]
      split
      · rename_i hret
        exact hsites hret j
      · rfl
    refine ⟨fun i j => ?_, fun {j b'} hb' => ?_, fun j hj => ?_⟩
    · rw [hlists, h.edges i j]
      by_cases hi : i = id
      · subst hi
        rw [hmem]
      · rw [hother i hi]
    · have hexit := h.exits (bare?_of_block? hb)
      rw [bare?_modifyBlock] at hb'
      split at hb'
      · rename_i heq
        subst heq
        rw [hb] at hb'
        cases hb'
        refine ⟨hexit.sides, fun hret hnone => hexit.returns hret ?_⟩
        exact (Option.or_eq_none_iff.1 hnone).2
      · exact h.exits hb'
    · obtain ⟨b', hb'⟩ := contains_iff.1 (h.roles j hj)
      rw [contains, block?_modifyBlock, hb']
      split <;> rfl

/-- A block that was only referred to is taken over without a change of edges: it does
not return. -/
theorem Consistent.adopt (h : Consistent g) {b : Block} (hb : g.block? id = some b)
    (hp : b.populated = false) (isExit : Bool) (function : Option FunctionId) :
    Consistent (g.modifyBlock id (Block.adopted isExit function)) := by
  have hbare : g.bare? id = some b.bare := bare?_of_block? hb
  have hplain : ¬ b.terminator.isReturn = true := fun ht =>
    (h.wellFormed.exits hbare).returns ht (h.unowned hbare hp)
  refine ⟨(h.wellFormed.adopt_iff hb isExit function).2 fun ht => absurd ht hplain,
    fun {j b'} hb' hp' => ?_⟩
  rw [bare?_modifyBlock] at hb'
  split at hb'
  · obtain ⟨c, -, rfl⟩ := Option.map_eq_some_iff.1 hb'
    exact absurd hp' (by simp [Block.bare, Block.adopted])
  · exact h.unowned hb' hp'

/-! ## Roles, functions and calls -/

/-- Other roles, if they are played by blocks that exist. -/
theorem WellFormed.withRoles (h : WellFormed g) {first last : Option BlockId}
    (hfirst : ∀ id, first = some id → g.contains id = true)
    (hlast : ∀ id, last = some id → g.contains id = true) :
    WellFormed { g with first, last } := by
  refine ⟨h.edges, h.exits, fun id hid => ?_⟩
  rcases mem_designated.1 hid with hid | hid | hid
  · exact hfirst id hid
  · exact hlast id hid
  · exact h.roles id (mem_designated.2 (.inr (.inr hid)))

theorem Consistent.withRoles (h : Consistent g) {first last : Option BlockId}
    (hfirst : ∀ id, first = some id → g.contains id = true)
    (hlast : ∀ id, last = some id → g.contains id = true) :
    Consistent { g with first, last } :=
  ⟨h.wellFormed.withRoles hfirst hlast, h.unowned⟩

/-- The block has a role in the function. -/
def Mentions (info : FunctionInfo) (id : BlockId) : Prop :=
  info.entry = some id ∨ info.exit = some id ∨
    ∃ c ∈ info.calls, c.caller = id ∨ c.returnTo = id

theorem WellFormed.contains_of_mentions (h : WellFormed g) {k : FunctionId}
    {info : FunctionInfo} (hk : g.function? k = some info) (hm : Mentions info id) :
    g.contains id = true :=
  h.roles id (mem_designated.2 (.inr (.inr ⟨k, info, hk, hm⟩)))

/-- A change of functions, if roles in them are played by blocks that exist. -/
theorem WellFormed.roles_of_functions (h : WellFormed g) (hfirst : g'.first = g.first)
    (hlast : g'.last = g.last) (hcontains : ∀ id, g'.contains id = g.contains id)
    (hf : ∀ k info, g'.function? k = some info → ∀ id, Mentions info id →
      g.contains id = true) : ∀ id ∈ g'.designated, g'.contains id = true := by
  intro id hid
  rw [hcontains]
  rcases mem_designated.1 hid with hid | hid | ⟨k, info, hk, hm⟩
  · exact h.roles id (mem_designated.2 (.inl (hfirst ▸ hid)))
  · exact h.roles id (mem_designated.2 (.inr (.inl (hlast ▸ hid))))
  · exact hf k info hk id hm

/-- Another entry or exit of a function. -/
theorem WellFormed.modifyFunction (h : WellFormed g) {f : FunctionId}
    {change : FunctionInfo → FunctionInfo} (hcalls : ∀ info, (change info).calls = info.calls)
    (hroles : ∀ info id, Mentions (change info) id →
      Mentions info id ∨ g.contains id = true) :
    WellFormed (g.modifyFunction f change) := by
  refine ⟨h.edges.modifyFunction hcalls, h.exits,
    h.roles_of_functions rfl rfl (fun _ => rfl) fun k info hk id hm => ?_⟩
  rw [function?_modifyFunction] at hk
  split at hk
  · obtain ⟨info, hinfo, rfl⟩ := Option.map_eq_some_iff.1 hk
    exact (hroles info id hm).elim (h.contains_of_mentions hinfo) fun h' => h'
  · exact h.contains_of_mentions hk hm

theorem Consistent.modifyFunction (h : Consistent g) {f : FunctionId}
    {change : FunctionInfo → FunctionInfo} (hcalls : ∀ info, (change info).calls = info.calls)
    (hroles : ∀ info id, Mentions (change info) id →
      Mentions info id ∨ g.contains id = true) :
    Consistent (g.modifyFunction f change) :=
  ⟨h.wellFormed.modifyFunction hcalls hroles, h.unowned⟩

/-- A new function has neither blocks nor calls. -/
theorem Consistent.addFunction (h : Consistent g) {info : FunctionInfo}
    (hentry : info.entry = none) (hexit : info.exit = none) (hcalls : info.calls = []) :
    Consistent { g with functions := g.functions.push info } := by
  have hfunction : ∀ k, ({ g with functions := g.functions.push info } : FlowGraph).function? k =
      if k = g.functions.size then some info else g.function? k := fun k => by
    simp only [function?, Array.getElem?_push]
  have hsites : ∀ f, ({ g with functions := g.functions.push info } : FlowGraph).returnSitesOf f =
      g.returnSitesOf f := by
    intro f
    unfold returnSitesOf
    cases f with
    | none => rfl
    | some k =>
        rw [Option.bind_some, Option.bind_some, hfunction]
        split
        · rename_i hk
          rw [hk, show g.function? g.functions.size = none by simp [function?]]
          simp [FunctionInfo.returnSites, hcalls]
        · rfl
  refine ⟨⟨h.wellFormed.edges.transport (fun _ => rfl) fun i _ => successors_congr_sites rfl hsites,
    h.wellFormed.exits, h.wellFormed.roles_of_functions rfl rfl (fun _ => rfl)
      fun k other hk id hm => ?_⟩, h.unowned⟩
  rw [hfunction] at hk
  split at hk
  · cases hk
    exact absurd hm (by simp [Mentions, hentry, hexit, hcalls])
  · exact h.wellFormed.contains_of_mentions hk hm

/-- Another call, between blocks that exist. -/
theorem Consistent.registerCall (h : Consistent g) (f : FunctionId) {c : Call}
    (hcaller : g.contains c.caller = true) (hsite : g.contains c.returnTo = true) :
    Consistent (g.editCalls f (· ++ [c])) := by
  refine ⟨⟨h.wellFormed.edges.editCalls (fun _ _ => trivial) fun info hinfo d hd => ?_,
    fun {id b} hb => h.wellFormed.exits (bare?_editCalls g f _ id ▸ hb),
    h.wellFormed.roles_of_functions (first_editCalls g f _) (last_editCalls g f _)
      (contains_editCalls g f _) fun k info hk id hm => ?_⟩,
    fun {id b} hb => h.unowned (bare?_editCalls g f _ id ▸ hb)⟩
  · rcases List.mem_append.1 hd with hd | hd
    · exact h.wellFormed.returnTo_live hinfo hd
    · obtain rfl := List.mem_singleton.1 hd
      exact hsite
  · rw [function?_editCalls] at hk
    split at hk
    · obtain ⟨info, hinfo, rfl⟩ := Option.map_eq_some_iff.1 hk
      rcases hm with hm | hm | ⟨d, hd, hm⟩
      · exact h.wellFormed.contains_of_mentions hinfo (.inl hm)
      · exact h.wellFormed.contains_of_mentions hinfo (.inr (.inl hm))
      · rcases List.mem_append.1 hd with hd | hd
        · exact h.wellFormed.contains_of_mentions hinfo (.inr (.inr ⟨d, hd, hm⟩))
        · obtain rfl := List.mem_singleton.1 hd
          rcases hm with rfl | rfl
          · exact hcaller
          · exact hsite
    · exact h.wellFormed.contains_of_mentions hk hm

/-! ## Terminators -/

theorem Consistent.withTerminator (h : Consistent g) {t : Terminator} {b : Block}
    (hb : g.bare? id = some b) (hret : t.isReturn = true → b.function ≠ none)
    (ht : ∀ target ∈ t.normalize.targets, g.contains target = true) :
    Consistent (g.withTerminator id t.normalize) := by
  have hsound : SoundExit t.normalize b.function :=
    ⟨Terminator.sides_of_normalize, fun hr => hret (Terminator.isReturn_normalize t ▸ hr)⟩
  refine ⟨h.wellFormed.withTerminator hb hsound ht, fun {j b'} hb' hp => ?_⟩
  rw [bare?_withTerminator] at hb'
  split at hb'
  · obtain ⟨c, hc, rfl⟩ := Option.map_eq_some_iff.1 hb'
    have howner := h.unowned hc hp
    exact howner
  · exact h.unowned hb' hp

/-! ## Careful edits -/

variable {α β : Type} {post : α → FlowGraph → Prop}

/-- The edit keeps the invariant, and if it fails, then with no defect. -/
def Careful (x : Edit α) (g : FlowGraph) (post : α → FlowGraph → Prop) : Prop :=
  match outcome x g with
  | (.ok a, g') => Consistent g' ∧ post a g'
  | (.error e, g') => Consistent g' ∧ e.isInternal = false

namespace Careful

theorem pure (h : Consistent g) {a : α} (ha : post a g) :
    Careful (pure a) g post := ⟨h, ha⟩

theorem throw (h : Consistent g) {e : Error} (he : e.isInternal = false) :
    Careful (throw e : Edit α) g post := ⟨h, he⟩

theorem get (h : Consistent g) : Careful get g fun a g' => a = g ∧ g' = g := ⟨h, rfl, rfl⟩

theorem set (h : Consistent g') : Careful (set g') g fun _ r => r = g' := ⟨h, rfl⟩

theorem modify {f : FlowGraph → FlowGraph} (h : Consistent (f g)) :
    Careful (modify f) g fun _ r => r = f g := ⟨h, rfl⟩

theorem bind {x : Edit α} {f : α → Edit β} {middle : α → FlowGraph → Prop}
    {last : β → FlowGraph → Prop} (hx : Careful x g middle)
    (hf : ∀ a g', Consistent g' → middle a g' → Careful (f a) g' last) :
    Careful (x >>= f) g last := by
  unfold Careful at hx ⊢
  rw [outcome_bind]
  rcases hrun : outcome x g with ⟨r, g'⟩
  rw [hrun] at hx
  cases r with
  | error e => exact hx
  | ok a => exact hf a g' hx.1 hx.2

theorem imp {x : Edit α} {other : α → FlowGraph → Prop} (hx : Careful x g post)
    (himp : ∀ a g', post a g' → other a g') : Careful x g other := by
  unfold Careful at hx ⊢
  rcases hrun : outcome x g with ⟨r, g'⟩
  rw [hrun] at hx
  cases r with
  | error e => exact hx
  | ok a => exact ⟨hx.1, himp a g' hx.2⟩

theorem block (h : Consistent g) (id : BlockId) :
    Careful (Edit.block id) g fun b g' => g.block? id = some b ∧ g' = g := by
  unfold Careful
  cases hb : g.block? id with
  | none =>
      rw [outcome_block_none hb]
      exact ⟨h, rfl⟩
  | some b =>
      rw [outcome_block hb]
      exact ⟨h, rfl, rfl⟩

theorem function (h : Consistent g) (f : FunctionId) :
    Careful (Edit.function f) g fun _ g' => g' = g := by
  refine (get h).bind ?_
  rintro _ g h ⟨rfl, rfl⟩
  cases g.function? f with
  | none => exact throw h rfl
  | some info => exact pure h rfl

/-- A check that may stop an edit. -/
theorem check {c : Prop} [Decidable c] {e : Error} {x : PUnit → Edit α} (h : Consistent g)
    (he : e.isInternal = false) (hx : ¬ c → Careful (x ⟨⟩) g post) :
    Careful (if c then MonadExcept.throw e >>= x else x ⟨⟩) g post := by
  split
  · have hstop : Careful (MonadExcept.throw e : Edit PUnit) g fun _ _ => False := throw h he
    exact hstop.bind fun _ _ _ hf => hf.elim
  · rename_i hc
    exact hx hc

/-- A loop is careful if its body is. -/
theorem forIn {l : List α} {init : β} {f : α → β → Edit (ForInStep β)} (h : Consistent g)
    (hf : ∀ a b g, Consistent g → Careful (f a b) g fun _ _ => True) :
    Careful (forIn l init f) g fun _ _ => True := by
  induction l generalizing init g with
  | nil => exact pure h trivial
  | cons a l ih =>
      rw [List.forIn_cons]
      refine (hf a init g h).bind fun r g h _ => ?_
      cases r with
      | done b => exact pure h trivial
      | yield b => exact ih h

theorem mapM {l : List α} {f : α → Edit β} (h : Consistent g)
    (hf : ∀ a g, Consistent g → Careful (f a) g fun _ _ => True) :
    Careful (l.mapM f) g fun _ _ => True := by
  induction l generalizing g with
  | nil => exact pure h trivial
  | cons a l ih =>
      rw [List.mapM_cons]
      refine (hf a g h).bind fun b g h _ => ?_
      exact (ih h).bind fun bs g h _ => pure h trivial

end Careful

/-! ## Edits -/

theorem careful_setTerminator (h : Consistent g) {t : Terminator}
    (hret : t.isReturn = true → ∀ b, g.block? id = some b → b.function ≠ none) :
    Careful (setTerminator id t) g fun _ _ => True := by
  unfold Careful
  by_cases hok : g.contains id = true ∧ ∀ target ∈ t.normalize.targets, g.contains target = true
  · obtain ⟨b, hb⟩ := contains_iff.1 hok.1
    have hbare : g.bare? id = some b.bare := bare?_of_block? hb
    rw [outcome_setTerminator hok.1 hok.2]
    exact ⟨h.withTerminator hbare (fun hr => hret hr b hb) hok.2, trivial⟩
  · obtain ⟨label, hrun⟩ := outcome_setTerminator_error hok
    rw [hrun]
    exact ⟨h, rfl⟩

theorem careful_placeholder (h : Consistent g) (name : String) :
    Careful (placeholder name) g fun _ _ => True := by
  refine (Careful.get h).bind ?_
  rintro _ g h ⟨rfl, rfl⟩
  cases g.idOf? name with
  | some id => exact .pure h trivial
  | none =>
      refine (Careful.set (h.addBlock rfl rfl fun _ => rfl)).bind ?_
      rintro - _ h rfl
      exact .pure h trivial

theorem careful_findOrCreate (h : Consistent g) (name : String) (isExit : Bool)
    (function : Option FunctionId) :
    Careful (findOrCreate name false isExit function) g fun id g' => g'.contains id = true := by
  refine (Careful.get h).bind ?_
  rintro _ g h ⟨rfl, rfl⟩
  cases g.idOf? name with
  | some id =>
      refine (Careful.block h id).bind ?_
      rintro b g h ⟨hb, rfl⟩
      refine .check h rfl fun hp => ?_
      refine (Careful.set (h.adopt hb (by simpa using hp) isExit function)).bind ?_
      rintro - _ h rfl
      have hlive : (g.modifyBlock id (Block.adopted isExit function)).block? id =
          some (b.adopted isExit function) := by
        rw [block?_modifyBlock, if_pos rfl, hb, Option.map_some]
      exact .pure h (contains_iff.2 ⟨_, hlive⟩)
  | none =>
      refine (Careful.set (h.addBlock rfl rfl (fun hp => absurd hp (by simp)))).bind ?_
      rintro - _ h rfl
      exact .pure h (contains_iff.2 ⟨_, by rw [block?_addBlock, if_pos rfl]⟩)

/-- A block that is created may become the first of the program and the exit of its
function. -/
theorem careful_designate (h : Consistent g) (name : String) (isExit : Bool)
    (function : Option FunctionId) :
    Careful (do
      let id ← findOrCreate name false isExit function
      modify fun g => { g with first := g.first.or (some id) }
      if isExit then
        if let some f := function then
          modify (·.modifyFunction f fun info => { info with exit := some id })
      return id) g fun _ _ => True := by
  refine (careful_findOrCreate h name isExit function).bind fun id g h hid => ?_
  have hfirst : ∀ k, g.first.or (some id) = some k → g.contains k = true := by
    intro k hk
    cases hf : g.first with
    | none =>
        rw [hf] at hk
        cases hk
        exact hid
    | some k' =>
        rw [hf] at hk
        cases hk
        exact h.wellFormed.roles _ (mem_designated.2 (.inl hf))
  have hlast : ∀ k, g.last = some k → g.contains k = true := fun k hk =>
    h.wellFormed.roles _ (mem_designated.2 (.inr (.inl hk)))
  refine (Careful.modify (h.withRoles hfirst hlast)).bind ?_
  rintro - _ h rfl
  split
  · cases function with
    | none => exact .pure h trivial
    | some f =>
        have hexit : Consistent (FlowGraph.modifyFunction
            { g with first := g.first.or (some id) } f fun info =>
              { info with exit := some id }) := by
          refine h.modifyFunction (fun _ => rfl) fun info k hk => ?_
          rcases hk with hk | hk | hk
          · exact .inl (.inl hk)
          · cases hk
            exact .inr hid
          · exact .inl (.inr (.inr hk))
        refine (Careful.modify hexit).bind ?_
        rintro - _ h rfl
        exact .pure h trivial
  · exact .pure h trivial

theorem careful_createNode (h : Consistent g) (name : String) (isExit : Bool)
    (function : Option FunctionId) :
    Careful (createNode name false isExit function) g fun _ _ => True := by
  unfold createNode
  cases function with
  | none => exact careful_designate h name isExit none
  | some f =>
      refine (Careful.function h f).bind ?_
      rintro info g h rfl
      exact careful_designate h name isExit (some f)

/-- An edit of a block that exists. -/
theorem careful_onBlock (h : Consistent g) {f : FlowGraph → FlowGraph}
    (hf : g.contains id = true → Consistent (f g)) :
    Careful (do let _ ← Edit.block id; modify f) g fun _ _ => True := by
  refine (Careful.block h id).bind ?_
  rintro b g h ⟨hb, rfl⟩
  exact (Careful.modify (hf (contains_iff.2 ⟨b, hb⟩))).imp fun _ _ _ => trivial

theorem careful_modifyBlock (h : Consistent g) (id : BlockId) (f : Block → Block)
    (hf : Harmless f) : Careful (modify (·.modifyBlock id f)) g fun _ _ => True :=
  (Careful.modify (h.modifyBlock id hf)).imp fun _ _ _ => trivial

theorem careful_setFirst (h : Consistent g) (id : BlockId) :
    Careful (setFirst id) g fun _ _ => True := by
  refine careful_onBlock h fun hid => h.withRoles (fun k hk => ?_) fun k hk => ?_
  · cases hk
    exact hid
  · exact h.wellFormed.roles _ (mem_designated.2 (.inr (.inl hk)))

theorem careful_setLast (h : Consistent g) (id : BlockId) :
    Careful (setLast id) g fun _ _ => True := by
  refine careful_onBlock h fun hid => h.withRoles (fun k hk => ?_) fun k hk => ?_
  · exact h.wellFormed.roles _ (mem_designated.2 (.inl hk))
  · cases hk
    exact hid

theorem careful_setLine (h : Consistent g) (id : BlockId) (line : Nat) :
    Careful (setLine id line) g fun _ _ => True :=
  careful_onBlock h fun _ => h.modifyBlock id fun _ => ⟨rfl, rfl, rfl, rfl⟩

theorem careful_closeBlock (h : Consistent g) (id : BlockId) :
    Careful (closeBlock id) g fun _ _ => True :=
  careful_onBlock h fun _ => h.modifyBlock id fun _ => ⟨rfl, rfl, rfl, rfl⟩

theorem careful_addFunction (h : Consistent g) (name : String)
    (params : List (String × ValueType)) (returnType : Option ValueType) :
    Careful (addFunction name params returnType) g fun _ _ => True := by
  refine (Careful.get h).bind ?_
  rintro _ g h ⟨rfl, rfl⟩
  refine (Careful.set (h.addFunction rfl rfl rfl)).bind ?_
  rintro - _ h rfl
  exact .pure h trivial

theorem careful_setFunctionEntry (h : Consistent g) (f : FunctionId) (id : BlockId) :
    Careful (setFunctionEntry f id) g fun _ _ => True := by
  refine (Careful.function h f).bind ?_
  rintro info g h rfl
  refine careful_onBlock h fun hid => h.modifyFunction (fun _ => rfl) fun info k hk => ?_
  rcases hk with hk | hk
  · cases hk
    exact .inr hid
  · exact .inl (.inr hk)

theorem careful_registerCall (h : Consistent g) (f : FunctionId) (caller site : BlockId)
    (saved : Nat) : Careful (registerCall f caller site saved) g fun _ _ => True := by
  refine (Careful.function h f).bind ?_
  rintro info g h rfl
  refine (Careful.block h caller).bind ?_
  rintro b g h ⟨hb, rfl⟩
  exact careful_onBlock h fun hsite => h.registerCall f (contains_iff.2 ⟨b, hb⟩) hsite

/-! ## Instructions -/

/-- Only a block that belongs to a function is made to return, and then no block is
created. -/
theorem careful_resolveSuffix (h : Consistent g) (owner : Block) (suffix : Suffix) :
    Careful (resolveSuffix owner suffix) g fun t g' =>
      t.isReturn = true → owner.function ≠ none ∧ g' = g := by
  cases suffix with
  | none => exact .pure h (by simp [Terminator.isReturn])
  | jump target =>
      refine (careful_placeholder h target).bind fun id g h _ => ?_
      exact .pure h (by simp [Terminator.isReturn])
  | branch test onTrue onFalse =>
      refine (careful_placeholder h onTrue).bind fun id g h _ => ?_
      refine (careful_placeholder h onFalse).bind fun id g h _ => ?_
      exact .pure h (by simp [Terminator.isReturn])
  | ret value =>
      unfold resolveSuffix
      refine .check h rfl fun hnone => ?_
      exact .pure h fun _ => ⟨by simpa using hnone, rfl⟩

theorem careful_setInstructions (h : Consistent g) (id : BlockId)
    (instructions : List Instruction) :
    Careful (setInstructions id instructions) g fun _ _ => True := by
  refine (Careful.block h id).bind ?_
  rintro owner g h ⟨hb, rfl⟩
  dsimp only
  split
  · exact .throw h rfl
  · rename_i suffix _
    refine (careful_resolveSuffix h owner suffix).bind fun t g' h' ht => ?_
    have hret : t.isReturn = true → ∀ b, g'.block? id = some b → b.function ≠ none := by
      intro hr b hb'
      obtain ⟨howner, rfl⟩ := ht hr
      rw [hb] at hb'
      cases hb'
      exact howner
    refine (careful_setTerminator h' hret).bind fun _ g h _ => ?_
    exact careful_modifyBlock h id _ fun _ => ⟨rfl, rfl, rfl, rfl⟩

theorem careful_pushInstruction (h : Consistent g) (id : BlockId) (i : Instruction) :
    Careful (pushInstruction id i) g fun _ _ => True := by
  refine (Careful.block h id).bind ?_
  rintro owner g h ⟨hb, rfl⟩
  refine .check h rfl fun _ => ?_
  dsimp only
  split
  · refine .check h rfl fun _ => ?_
    refine (careful_placeholder h _).bind fun target g h _ => ?_
    exact careful_modifyBlock h id _ fun _ => ⟨rfl, rfl, rfl, rfl⟩
  · refine (careful_placeholder h _).bind fun target g h _ => ?_
    refine Careful.bind (careful_modifyBlock h id _ ?_) fun _ g h _ => ?_
    · exact fun _ => ⟨rfl, rfl, rfl, rfl⟩
    · refine (careful_setTerminator h ?_).bind fun _ g h _ => careful_closeBlock h id
      split <;> simp [Terminator.isReturn]
  · refine .check h rfl fun _ => .check h rfl fun hnone => ?_
    refine (careful_setTerminator h ?_).bind fun _ g h _ => careful_closeBlock h id
    intro _ b hb'
    rw [hb] at hb'
    cases hb'
    simpa using hnone
  · refine .check h rfl fun _ => ?_
    exact careful_modifyBlock h id _ fun _ => ⟨rfl, rfl, rfl, rfl⟩

end FlowGraph

/-! ## Graphs that are made block by block -/

/-- An edit by which graphs are made. -/
inductive Construction where
  /-- Creates a block, or takes one over that was only referred to. -/
  | createNode (name : String) (isExit : Bool) (function : Option FunctionId)
  /-- Replaces all instructions of a block. -/
  | setInstructions (id : BlockId) (instructions : List Instruction)
  /-- Appends an instruction to a block. -/
  | pushInstruction (id : BlockId) (instruction : Instruction)
  /-- Gives a block another terminator. -/
  | setTerminator (id : BlockId) (terminator : Terminator)
  /-- Makes a block the first of the program. -/
  | setFirst (id : BlockId)
  /-- Makes a block the last of the program. -/
  | setLast (id : BlockId)
  /-- Notes the source line of a block. -/
  | setLine (id : BlockId) (line : Nat)
  /-- Adds a function. -/
  | addFunction (name : String) (params : List (String × ValueType))
      (returnType : Option ValueType)
  /-- Makes a block the entry of a function. -/
  | setFunctionEntry (function : FunctionId) (entry : BlockId)
  /-- Records a call. -/
  | registerCall (function : FunctionId) (caller returnTo : BlockId) (saved : Nat)

namespace Construction

open FlowGraph

/-- What the edit does. -/
def edit : Construction → Edit Unit
  | createNode name isExit function => do let _ ← FlowGraph.createNode name false isExit function
  | setInstructions id instructions => FlowGraph.setInstructions id instructions
  | pushInstruction id instruction => FlowGraph.pushInstruction id instruction
  | setTerminator id terminator => FlowGraph.setTerminator id terminator
  | setFirst id => FlowGraph.setFirst id
  | setLast id => FlowGraph.setLast id
  | setLine id line => FlowGraph.setLine id line
  | addFunction name params returnType => do
    let _ ← FlowGraph.addFunction name params returnType
  | setFunctionEntry function entry => FlowGraph.setFunctionEntry function entry
  | registerCall function caller returnTo saved =>
    FlowGraph.registerCall function caller returnTo saved

/-- Only a block that belongs to a function is made to return. -/
def Allowed (g : FlowGraph) : Construction → Prop
  | setTerminator id terminator =>
    terminator.isReturn = true → ∀ b, g.block? id = some b → b.function ≠ none
  | _ => True

/-- **Every edit is careful.** -/
theorem careful {g : FlowGraph} (h : Consistent g) (c : Construction) (hc : c.Allowed g) :
    Careful c.edit g fun _ _ => True := by
  cases c with
  | createNode name isExit function =>
      exact (careful_createNode h name isExit function).bind fun _ _ h _ => .pure h trivial
  | setInstructions id instructions => exact careful_setInstructions h id instructions
  | pushInstruction id instruction => exact careful_pushInstruction h id instruction
  | setTerminator id terminator => exact careful_setTerminator h hc
  | setFirst id => exact careful_setFirst h id
  | setLast id => exact careful_setLast h id
  | setLine id line => exact careful_setLine h id line
  | addFunction name params returnType =>
      exact (careful_addFunction h name params returnType).bind fun _ _ h _ => .pure h trivial
  | setFunctionEntry function entry => exact careful_setFunctionEntry h function entry
  | registerCall function caller returnTo saved =>
      exact careful_registerCall h function caller returnTo saved

end Construction

namespace FlowGraph

/-- The graphs that come about by edits, whether these succeed or fail. -/
inductive Constructible : FlowGraph → Prop where
  | empty : Constructible .empty
  | step {g : FlowGraph} (c : Construction) :
      Constructible g → c.Allowed g → Constructible (c.edit.runOn g).2

theorem Careful.consistent {α : Type} {x : Edit α} {g : FlowGraph}
    {post : α → FlowGraph → Prop} (h : Careful x g post) : Consistent (outcome x g).2 := by
  unfold Careful at h
  rcases hrun : outcome x g with ⟨r, g'⟩
  rw [hrun] at h
  cases r with
  | error e => exact h.1
  | ok a => exact h.1

/-- **The invariant holds after every sequence of edits.** -/
theorem Constructible.consistent {g : FlowGraph} (h : Constructible g) : Consistent g := by
  induction h with
  | empty => exact consistent_empty
  | step c _ hc ih => exact (c.careful ih hc).consistent

end FlowGraph

/-! ## Drafts of programs -/

namespace Draft

open FlowGraph

/-- The drafts that come about by opening blocks, starting functions and giving
instructions. -/
inductive Drafted : Draft → Prop where
  | empty : Drafted .empty
  | openBlock {d : Draft} (name : String) (isExit : Bool) :
      Drafted d → Drafted (d.openBlock name isExit)
  | function {d : Draft} (name : String) (params : List (String × ValueType))
      (returnType : Option ValueType) : Drafted d → Drafted (d.function name params returnType)
  | mainProgram {d : Draft} : Drafted d → Drafted d.mainProgram
  | line {d : Draft} (n : Nat) : Drafted d → Drafted (d.line n)
  | finish {d : Draft} : Drafted d → Drafted d.finish
  | instr {d : Draft} (i : Instruction) : Drafted d → Drafted (d.instr i)
  | branch {d : Draft} (test : Comparison) (onTrue onFalse : String) :
      Drafted d → Drafted (d.branch test onTrue onFalse)
  | call {d : Draft} (function : String) (saved : List String) (args : List Operand)
      (returnTo : String) : Drafted d → Drafted (d.call function saved args returnTo)

/-- The mistake of a draft is no defect. -/
def OnlyMistaken (d : Draft) : Prop := ∀ e, d.error = some e → e.isInternal = false

theorem OnlyMistaken.fail {d : Draft} (h : d.OnlyMistaken) {e : Error}
    (he : e.isInternal = false) : (d.fail e).OnlyMistaken := by
  intro e' he'
  simp only [Draft.fail] at he'
  cases hd : d.error with
  | none =>
      rw [hd] at he'
      cases he'
      exact he
  | some known =>
      rw [hd] at he'
      obtain rfl : known = e' := Option.some.inj he'
      exact h known hd

theorem OnlyMistaken.instr {d : Draft} (h : d.OnlyMistaken) (i : Instruction) :
    (d.instr i).OnlyMistaken := by
  unfold Draft.instr
  split
  · exact h.fail rfl
  · exact h

theorem OnlyMistaken.foldl_instr {d : Draft} (h : d.OnlyMistaken) (is : List Instruction) :
    (is.foldl Draft.instr d).OnlyMistaken := by
  induction is generalizing d with
  | nil => exact h
  | cons i is ih => exact ih (h.instr i)

theorem Drafted.onlyMistaken {d : Draft} (h : Drafted d) : d.OnlyMistaken := by
  induction h with
  | empty => exact fun e he => absurd he (by simp [Draft.empty])
  | openBlock name isExit _ ih =>
      unfold Draft.openBlock
      dsimp only
      split
      · exact ih.fail rfl
      · exact ih
  | function _ _ _ _ ih => exact ih
  | mainProgram _ ih => exact ih
  | line _ _ ih => exact ih
  | finish _ ih =>
      unfold Draft.finish
      split
      · exact ih
      · exact ih
  | instr i _ ih => exact ih.instr i
  | branch test onTrue onFalse _ ih => exact (ih.instr _).instr _
  | call function saved args returnTo _ ih =>
      unfold Draft.call
      dsimp only
      split
      · exact (ih.foldl_instr _).fail rfl
      · exact ih.foldl_instr _

/-! ### Building a draft -/

variable {g : FlowGraph} {d : Draft}

theorem careful_createBlock (h : Consistent g) (b : BlockDraft) :
    Careful (createBlock b) g fun _ _ => True := by
  refine (careful_createNode h b.name b.isExit b.function).bind fun id g h _ => ?_
  cases b.line with
  | none => exact .pure h trivial
  | some n => exact (careful_setLine h id n).bind fun _ _ h _ => .pure h trivial

theorem careful_writeBlock (h : Consistent g) (ids : List BlockId) (b : BlockDraft)
    (id : BlockId) : Careful (d.writeBlock ids b id) g fun _ _ => True := by
  unfold writeBlock
  split
  · exact careful_setInstructions h id b.instructions
  · split
    · exact .throw h rfl
    · exact careful_setInstructions h id _

theorem careful_recordCall (h : Consistent g) (ids : List BlockId) (b : BlockDraft)
    (id : BlockId) : Careful (d.recordCall ids b id) g fun _ _ => True := by
  unfold recordCall
  split
  · split
    · refine (Careful.get h).bind ?_
      rintro _ g h ⟨rfl, rfl⟩
      split
      · exact .throw h rfl
      · exact careful_registerCall h _ id _ _
    · exact .pure h trivial
  · exact .pure h trivial

theorem careful_assemble (h : Consistent g) (hd : d.OnlyMistaken) :
    Careful d.assemble g fun _ _ => True := by
  unfold assemble
  cases he : d.error with
  | some e => exact .throw h (hd e he)
  | none =>
      dsimp only
      rw [← Array.forIn_toList]
      refine Careful.bind (Careful.forIn h fun f _ g h => ?_) fun _ g h _ => ?_
      · exact (careful_addFunction h _ _ _).bind fun _ _ h _ => .pure h trivial
      refine (Careful.mapM h fun b g h => careful_createBlock h b).bind fun ids g h _ => ?_
      refine Careful.bind (Careful.forIn h fun f _ g h => ?_) fun _ g h _ => ?_
      · split
        · exact (careful_setFunctionEntry h _ _).bind fun _ _ h _ => .pure h trivial
        · exact .pure h trivial
      refine Careful.bind (Careful.forIn h fun e _ g h => ?_) fun _ g h _ => ?_
      · exact (careful_writeBlock h ids e.1 e.2).bind fun _ _ h _ => .pure h trivial
      refine Careful.bind (Careful.forIn h fun e _ g h => ?_) fun _ g h _ => ?_
      · exact (careful_recordCall h ids e.1 e.2).bind fun _ _ h _ => .pure h trivial
      split
      · exact careful_setLast h _
      · exact .pure h trivial

/-- **A draft is built, or one of its mistakes is found.** -/
theorem isInternal_of_build_error (hd : Drafted d) {e : Error} (he : d.build = .error e) :
    e.isInternal = false := by
  have hcareful := careful_assemble consistent_empty hd.onlyMistaken
  unfold Careful at hcareful
  rw [build, show d.assemble.runOn .empty = outcome d.assemble .empty from rfl] at he
  rcases hrun : outcome d.assemble .empty with ⟨r, g⟩
  rw [hrun] at he hcareful
  cases r with
  | error e' =>
      cases he
      exact hcareful.2
  | ok _ =>
      have hvalid : g.validate = .ok () := validate_iff.2 hcareful.1.wellFormed
      simp only [hvalid] at he
      exact absurd he (by simp)

end Draft

namespace FlowGraph

/-- **Graphs are valid by construction.**  After every sequence of edits, whether they
succeed or fail, the graph passes validation: the lists of predecessors hold exactly the
edges, those of returns included, both sides of a branch exist and differ, only blocks of
functions return, and all blocks with a role exist.  Hence a draft is never refused
for a defect of the graph. -/
theorem constructible_valid :
    (∀ g, Constructible g →
      g.validate = .ok () ∧ (∀ n p, p ∈ g.predecessors n ↔ n ∈ g.successors p) ∧
        (∀ id b, g.block? id = some b →
          (∀ test onTrue onFalse, b.terminator = .branch test onTrue onFalse →
            onTrue ≠ onFalse ∧ g.contains onTrue = true ∧ g.contains onFalse = true) ∧
          (b.terminator.isReturn = true → b.function ≠ none)) ∧
        ∀ id ∈ g.designated, g.contains id = true) ∧
    ∀ d, Draft.Drafted d → ∀ e, d.build = .error e → e.isInternal = false := by
  refine ⟨fun g hg => ?_, fun d hd e he => Draft.isInternal_of_build_error hd he⟩
  have h : WellFormed g := hg.consistent.wellFormed
  refine ⟨validate_iff.2 h, fun n p => by simpa using h.edges p n, fun id b hb => ?_, h.roles⟩
  have hbare : g.bare? id = some b.bare := bare?_of_block? hb
  refine ⟨fun test onTrue onFalse ht => ⟨(h.exits hbare).sides ht, ?_, ?_⟩,
    (h.exits hbare).returns⟩
  · exact (h.target_live hbare (by simp [Block.bare, ht, Terminator.targets])).2
  · exact (h.target_live hbare (by simp [Block.bare, ht, Terminator.targets])).2

/-- A function whose only block returns to itself; the last edit fails. -/
theorem constructible_valid_recursive :
    ∃ g, Constructible g ∧ g.successors 0 = [0] ∧ g.predecessors 0 = [0] ∧
      g.validate = .ok () := by
  have hfunction := Constructible.empty.step (.addFunction "f" [] none) trivial
  have hblock := hfunction.step (.createNode "f" true (some 0)) trivial
  have hreturn := hblock.step (.setTerminator 0 (.ret none)) fun _ b hb => by
    cases hb
    decide
  have hcall := hreturn.step (.registerCall 0 0 0 0) trivial
  have hjump := hcall.step (.setTerminator 0 (.jump 7)) fun h => absurd h (by decide)
  exact ⟨_, hjump, by cbv, by cbv, (constructible_valid.1 _ hjump).1⟩

end FlowGraph
end FlowVerifier
