import FlowVerifier.Proofs.Flow.Identities
import FlowVerifier.Proofs.Flow.Writing

/-!
# Reading a listing back

The listing of a block names the blocks that its terminator leads to.  If these names are read
again they have to find the same blocks, and the control instructions at the end of the listing
have to become the same terminator.

* `takeWhile_listing` and `dropWhile_listing`: in a straight block the control instructions of
  the listing are those of the terminator.
* `outcome_readSuffix_controlSuffix`: in a valid graph with distinct names they stand for the
  terminator, and no block is created.
* `exists_relisted`: a block whose instructions are replaced by its listing is what it was, and
  so are the blocks around it.
-/

namespace FlowVerifier
namespace FlowGraph

variable {g g' : FlowGraph} {id : BlockId} {b : Block}

/-! ## The two parts of a listing -/

theorem takeWhile_controlSuffix (b : Block) (nameOf : BlockId → String) :
    (b.controlSuffix nameOf).takeWhile (!·.isControl) = [] := by
  unfold Block.controlSuffix
  split <;> rfl

theorem dropWhile_controlSuffix (b : Block) (nameOf : BlockId → String) :
    (b.controlSuffix nameOf).dropWhile (!·.isControl) = b.controlSuffix nameOf := by
  unfold Block.controlSuffix
  split <;> rfl

theorem listing_of_block? (hb : g.block? id = some b) :
    g.listing id = b.body ++ b.controlSuffix g.label := by
  rw [listing, hb]

theorem not_isControl_of_straight (h : b.Straight) : ∀ i ∈ b.body, (!i.isControl) = true := by
  intro i hi
  rw [h i hi]
  rfl

/-- The listing starts with the body. -/
theorem takeWhile_listing (hb : g.block? id = some b) (h : b.Straight) :
    (g.listing id).takeWhile (!·.isControl) = b.body := by
  rw [listing_of_block? hb, List.takeWhile_append_of_pos (not_isControl_of_straight h),
    takeWhile_controlSuffix, List.append_nil]

/-- The listing ends with the control instructions. -/
theorem dropWhile_listing (hb : g.block? id = some b) (h : b.Straight) :
    (g.listing id).dropWhile (!·.isControl) = b.controlSuffix g.label := by
  rw [listing_of_block? hb, List.dropWhile_append_of_pos (not_isControl_of_straight h),
    dropWhile_controlSuffix]

/-! ## Names that are read again -/

/-- The name of a block finds it, if names are distinct. -/
theorem outcome_placeholder_label (h : UniqueNames g) (hid : g.contains id = true) :
    outcome (placeholder (g.label id)) g = (.ok id, g) := by
  obtain ⟨b, hb⟩ := contains_iff.1 hid
  have hlabel : g.label id = b.name := by rw [label, name?_of_block? hb, Option.getD_some]
  rw [outcome_placeholder, hlabel, (idOf?_eq_some_iff_name? h).2 (name?_of_block? hb)]

/-- **The control instructions of a listing** stand for the terminator. -/
theorem outcome_readSuffix_controlSuffix (hg : WellFormed g) (h : UniqueNames g)
    (hb : g.block? id = some b) :
    outcome (readSuffix b (b.controlSuffix g.label)) g = (.ok b.terminator, g) := by
  have hlive : ∀ t ∈ b.terminator.targets, g.contains t = true :=
    fun t ht => (hg.target_live (bare?_of_block? hb) ht).2
  have hexit : SoundExit b.bare.terminator b.bare.function := hg.exits (bare?_of_block? hb)
  unfold Block.controlSuffix
  cases hterm : b.terminator with
  | finish => rfl
  | jump target =>
      have htarget := outcome_placeholder_label h (hlive target (by simp [hterm,
        Terminator.targets]))
      exact outcome_bind_ok htarget
  | branch test onTrue onFalse =>
      have htrue := outcome_placeholder_label h (hlive onTrue (by simp [hterm,
        Terminator.targets]))
      have hfalse := outcome_placeholder_label h (hlive onFalse (by simp [hterm,
        Terminator.targets]))
      exact (outcome_bind_ok htrue).trans (outcome_bind_ok hfalse)
  | ret value =>
      have hfunction : b.function.isNone = false := by
        rw [Option.isNone_eq_false_iff, Option.isSome_iff_ne_none]
        exact hexit.returns (show b.terminator.isReturn = true by rw [hterm]; rfl)
      show outcome (if b.function.isNone then _ else _) g = _
      rw [if_neg (by simp [hfunction])]
      rfl

/-! ## The round trip -/

/-- A block that is given the terminator it has stays as it is, but for the order of lists. -/
theorem bare?_withTerminator_self (hb : g.block? id = some b) (j : BlockId) :
    (g.withTerminator id b.terminator).bare? j = g.bare? j := by
  rw [bare?_withTerminator]
  split
  · rename_i heq
    rw [← heq, bare?_of_block? hb]
    rfl
  · rfl

/-- **The round trip.**  A listing that is written back leaves all blocks with the names,
bodies, terminators and predecessors that they had. -/
theorem exists_relisted (hg : WellFormed g) (h : UniqueNames g) (hb : g.block? id = some b)
    (hstraight : b.Straight) :
    ∃ g', outcome (setInstructions id (g.listing id)) g = (.ok (), g') ∧ ∀ j,
      (g'.block? j).map (fun b => (b.name, b.body, b.terminator)) =
        (g.block? j).map (fun b => (b.name, b.body, b.terminator)) ∧
      ∀ i, i ∈ g'.predecessors j ↔ i ∈ g.predecessors j := by
  have hbare? := bare?_of_block? hb
  have hexit : SoundExit b.bare.terminator b.bare.function := hg.exits hbare?
  have hnormal : b.terminator.normalize = b.terminator := hexit.normalize
  have hlive : ∀ t ∈ b.terminator.targets, g.contains t = true :=
    fun t ht => (hg.target_live (bare?_of_block? hb) ht).2
  have hbare := bare?_withTerminator_self hb
  have hagain : WellFormed (g.withTerminator id b.terminator) :=
    hg.withTerminator hbare? hexit hlive
  have hrun := outcome_setTerminator (t := b.terminator) (contains_iff.2 ⟨b, hb⟩)
    (by rwa [hnormal])
  rw [hnormal] at hrun
  refine ⟨(g.withTerminator id b.terminator).fill id b.body (b.terminator != .finish) none,
    ?_, fun j => ⟨?_, fun i => ?_⟩⟩
  · rw [outcome_setInstructions hb, takeWhile_listing hb hstraight,
      dropWhile_listing hb hstraight,
      outcome_bind_ok (outcome_readSuffix_controlSuffix hg h hb), outcome_bind_ok hrun]
    rfl
  · have hview : ∀ g : FlowGraph, (g.block? j).map (fun b => (b.name, b.body, b.terminator)) =
        (g.bare? j).map (fun b => (b.name, b.body, b.terminator)) := by
      intro g
      rw [bare?, Option.map_map]
      rfl
    rw [fill, block?_modifyBlock]
    split
    · rename_i heq
      subst heq
      have hsame := hview (g.withTerminator id b.terminator)
      rw [hbare, ← hview g, hb] at hsame
      obtain ⟨b', hb', htext⟩ := Option.map_eq_some_iff.1 hsame
      rw [hb', hb]
      simp only [Prod.mk.injEq] at htext
      simp [Block.filled, htext]
    · rw [hview, hbare, ← hview]
  · have hlists : ((g.withTerminator id b.terminator).fill id b.body
        (b.terminator != .finish) none).predecessors j =
        (g.withTerminator id b.terminator).predecessors j :=
      predecessors_modifyBlock (f := Block.filled b.body (b.terminator != .finish) none)
        (fun _ => rfl) _ id j
    rw [hlists, hagain.edges i j, hg.edges i j,
      successors_congr (hbare i) (functions_withTerminator g id b.terminator)]

end FlowGraph
end FlowVerifier
