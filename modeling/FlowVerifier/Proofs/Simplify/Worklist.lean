import FlowVerifier.Proofs.Simplify.Constants
import FlowVerifier.Proofs.Simplify.EmptyBlocks
import FlowVerifier.Proofs.Simplify.Fusion
import FlowVerifier.Simplify.Worklist
import Mathlib

/-!
# The simplifier preserves what programs do

Every pass is sound on its own, so the worklist may offer the blocks in any order and
stop anywhere.  The simplified program prints the same values, reads the same inputs
and ends the same way as the original one.  Only the elision of empty blocks takes
liberties: a branch whose two sides come to lead to the same block is no longer tested,
so a run that failed at its test goes on (`simplify_untested`).
-/

namespace FlowVerifier
namespace Simplify

open FlowGraph Run

variable {lax : Prop}

/-! ## Passes -/

/-- Every pass is sound; the elision of empty blocks is lax. -/
theorem sound_apply {pass : Pass} (hpass : pass = .emptyBlocks → lax) (id : BlockId) :
    Sound lax (pass.apply id) := by
  cases pass with
  | constants removeUnused => exact sound_propagateConstants removeUnused id
  | emptyBlocks => exact sound_elideEmptyBlock (hpass rfl) id
  | fusion => exact sound_fuseBlock id

/-- Offering a block to passes is sound. -/
theorem sound_visit (id : BlockId) {passes : List Pass}
    (hpasses : ∀ pass ∈ passes, pass = .emptyBlocks → lax) (state : List BlockId × Nat) :
    Sound lax (visit id passes state) := by
  induction passes generalizing state with
  | nil => exact .pure state
  | cons pass rest ih =>
      obtain ⟨queue, changes⟩ := state
      have hrest := ih fun p hp => hpasses p (List.mem_cons_of_mem _ hp)
      refine Silent.graph.sound.bind fun g => ?_
      split
      · refine (sound_apply (hpasses pass List.mem_cons_self) id).bind fun changed => ?_
        split
        · exact hrest _
        · exact Silent.graph.sound.bind fun g' => hrest _
      · exact .pure _

/-! ## The worklist -/

/-- Working through the list is sound, wherever it stops. -/
theorem sound_drain (cap : Nat) {passes : List Pass}
    (hpasses : ∀ pass ∈ passes, pass = .emptyBlocks → lax) (left : Nat) (queue : List BlockId)
    (stats : Stats) : Sound lax (drain cap passes left queue stats) := by
  induction left generalizing queue stats with
  | zero =>
      cases queue with
      | nil => exact .pure stats
      | cons id rest => exact ((Silent.record _).bind fun _ => .pure _).sound
  | succ left ih =>
      cases queue with
      | nil => exact .pure stats
      | cons id rest => exact (sound_visit id hpasses _).bind fun state => ih _ _

/-- A proper graph passes the check at the end. -/
theorem sound_checkValid : Sound lax checkValid := by
  intro w hw
  refine SoundOn.graph_bind ?_
  rw [validate_iff.2 hw.wellFormed]
  exact Sound.pure () w hw

/-- **The worklist** is sound. -/
theorem sound_run (cap : Nat) {passes : List Pass}
    (hpasses : ∀ pass ∈ passes, pass = .emptyBlocks → lax) : Sound lax (run cap passes) := by
  unfold run
  split
  · exact .pure _
  · refine (Silent.forIn fun pass => (Silent.record _).bind fun _ => .pure _).sound.bind fun _ => ?_
    refine Silent.graph.sound.bind fun g => ?_
    refine (sound_drain cap hpasses cap _ _).bind fun stats => ?_
    refine sound_checkValid.bind fun _ => ?_
    exact ((Silent.forIn fun pass => (Silent.record _).bind fun _ => .pure _).bind
      fun _ => .pure _).sound

/-- **The simplifier** is sound, and lax only if it elides empty blocks. -/
theorem sound_simplify (s : SimplifySettings) :
    Sound (s.elideEmptyBlocks = true) (simplify s) := by
  have henabled : .emptyBlocks ∈ Pass.enabled s → s.elideEmptyBlocks = true := by
    unfold Pass.enabled
    cases s.constantPropagation <;> cases s.elideEmptyBlocks <;> cases s.fuseBlocks <;> simp
  refine sound_run s.maxIterations fun pass hpass heq => ?_
  subst heq
  exact henabled hpass

/-! ## What the simplifier does to runs -/

/-- **The simplifier preserves runs.**  It succeeds on every valid graph with distinct
names.  The simplified program shows all that the original one shows.  It shows the
same and ends the same way, unless empty blocks are elided and the original program
fails at a test. -/
theorem simplify_sameRuns (s : SimplifySettings) {w : Workspace}
    (hvalid : w.graph.validate = .ok ()) (hnames : w.graph.UniqueNames) :
    ∃ stats w', (simplify s).runOn w = (.ok stats, w') ∧
      ∀ env : Environment, env.checked = false →
        ((s.elideEmptyBlocks = true → ¬ FailsTest env w.graph) →
          SameRuns env w.graph w'.graph) ∧
        ∀ values inputs, Shows env w.graph values inputs → Shows env w'.graph values inputs := by
  obtain ⟨stats, w', hrun, hstands⟩ := sound_simplify s w ⟨validate_iff.1 hvalid, hnames⟩
  refine ⟨stats, w', hrun, fun env hfree => ?_⟩
  have hruns := hstands.runs env hfree
  exact ⟨hruns.sameRuns, fun _ _ => hruns.shows⟩

/-- A program that calls a function, which returns to an empty block. -/
def detour : FlowGraph where
  slots := #[
    some {
      name := "main"
      body := [.input "x", .pushState "back", .push (.var "x")]
      terminator := .jump 1 },
    some {
      name := "entry"
      body := [.pop (some "y")]
      terminator := .ret (some (.var "y"))
      predecessors := [0]
      function := some 0
      isExit := true },
    some { name := "back", terminator := .jump 3, predecessors := [1] },
    some { name := "end", body := [.pop (some "z"), .print (.var "z")], predecessors := [2] }]
  functions := #[{ name := "f", entry := some 1, exit := some 1, calls := [⟨0, 2, 0⟩] }]
  first := some 0
  last := some 3

/-- The program with the call runs the same after it was simplified. -/
theorem simplify_sameRuns_detour :
    detour.validate = .ok () ∧ detour.UniqueNames ∧
      ∃ stats w', (simplify {}).runOn { graph := detour } = (.ok stats, w') ∧
        ∀ env : Environment, env.checked = false →
          (¬ FailsTest env detour → SameRuns env detour w'.graph) ∧
          ∀ values inputs, Shows env detour values inputs → Shows env w'.graph values inputs := by
  have hvalid : detour.validate = .ok () := by cbv
  have hnames : detour.UniqueNames := uniqueNames_of_nodup (by decide)
  obtain ⟨stats, w', hrun, hsame⟩ := simplify_sameRuns {} (w := { graph := detour }) hvalid hnames
  exact ⟨hvalid, hnames, stats, w', hrun,
    fun env hfree => ⟨fun hfails => (hsame env hfree).1 fun _ => hfails, (hsame env hfree).2⟩⟩

/-! ## What the simplifier does to graphs -/

/-- Offers single blocks to single passes, one after the other. -/
def offerAll (offers : List (Pass × BlockId)) : Transform (List (List BlockId)) :=
  offers.mapM fun offer => offer.1.apply offer.2

/-- **The simplifier never breaks a graph.**  On a valid graph with distinct names the
worklist succeeds, whatever passes it offers the blocks to and wherever it stops; so
does every sequence of single passes on single blocks, in any order.  The graph that is
left is valid, and its names are distinct. -/
theorem run_valid {w : Workspace} (hvalid : w.graph.validate = .ok ())
    (hnames : w.graph.UniqueNames) :
    (∀ (cap : Nat) (passes : List Pass), ∃ stats w', (run cap passes).runOn w = (.ok stats, w') ∧
      w'.graph.validate = .ok () ∧ w'.graph.UniqueNames) ∧
    ∀ offers : List (Pass × BlockId), ∃ changed w', (offerAll offers).runOn w = (.ok changed, w') ∧
      w'.graph.validate = .ok () ∧ w'.graph.UniqueNames := by
  have hproper : Proper w.graph := ⟨validate_iff.1 hvalid, hnames⟩
  constructor
  · intro cap passes
    have hsound : Sound True (run cap passes) := sound_run cap fun _ _ _ => trivial
    obtain ⟨stats, w', hrun, hstands⟩ := hsound w hproper
    exact ⟨stats, w', hrun, validate_iff.2 hstands.proper.wellFormed, hstands.proper.names⟩
  · intro offers
    have hsound : Sound True (offerAll offers) :=
      .mapM fun offer => sound_apply (fun _ => trivial) offer.2
    obtain ⟨changed, w', hrun, hstands⟩ := hsound w hproper
    exact ⟨changed, w', hrun, validate_iff.2 hstands.proper.wellFormed, hstands.proper.names⟩

/-- The program with the call stays valid when its empty return site is elided, the
block behind it is offered for fusion and the constants of the first block are
propagated. -/
theorem run_valid_detour :
    detour.validate = .ok () ∧ detour.UniqueNames ∧
      (∃ stats w', (run 7 [.emptyBlocks, .constants true, .fusion]).runOn { graph := detour } =
        (.ok stats, w') ∧ w'.graph.validate = .ok () ∧ w'.graph.UniqueNames) ∧
      ∃ changed w',
        (offerAll [(.emptyBlocks, 2), (.fusion, 3), (.constants true, 0)]).runOn
          { graph := detour } = (.ok changed, w') ∧
        w'.graph.validate = .ok () ∧ w'.graph.UniqueNames := by
  have hvalid : detour.validate = .ok () := by cbv
  have hnames : detour.UniqueNames := uniqueNames_of_nodup (by decide)
  obtain ⟨hrun, hoffers⟩ := run_valid (w := { graph := detour }) hvalid hnames
  exact ⟨hvalid, hnames, hrun _ _, hoffers _⟩

/-! ## A test that is no longer made -/

/-- A program that compares a string with a number; one side of the branch is empty
and leads to the other. -/
def mixed : FlowGraph where
  slots := #[
    some {
      name := "a"
      body := [.assign "x" (.literal (.string "t")), .input "y"]
      terminator := .branch ⟨.var "x", .lt, .var "y"⟩ 1 2 },
    some { name := "b", terminator := .jump 2, predecessors := [0] },
    some { name := "c", body := [.print (.literal (.string "done"))], predecessors := [0, 1] }]
  first := some 0

/-- Nothing but the elision of empty blocks. -/
def elision : SimplifySettings where
  maxIterations := 3
  constantPropagation := false
  fuseBlocks := false

/-- Every input is zero, and no variable holds anything before it is written. -/
def zeros : Environment where
  inputs _ := some (.number Double.zero)
  scalar _ _ := none
  element _ _ _ := none
  checked := false

theorem simplify_mixed :
    ((simplify elision).runOn { graph := mixed }).2.graph =
      { mixed with
        slots := #[
          some {
            name := "a"
            body := [.assign "x" (.literal (.string "t")), .input "y"]
            terminator := .jump 2 },
          none,
          some {
            name := "c"
            body := [.print (.literal (.string "done"))]
            predecessors := [0] }] } := by
  cbv

/-- **A test is lost.**  The original program fails at its test; the simplified one
prints and finishes. -/
theorem simplify_untested :
    mixed.validate = .ok () ∧ mixed.UniqueNames ∧
      ((simplify elision).runOn { graph := mixed }).1.toOption.isSome = true ∧
      Stops zeros mixed (.badTest .typeMismatch) [] 1 ∧
      Stops zeros ((simplify elision).runOn { graph := mixed }).2.graph .finished
        [.string "done"] 1 := by
  refine ⟨by cbv, uniqueNames_of_nodup (by decide), by cbv, ⟨1, _, rfl, rfl, rfl⟩, ?_⟩
  rw [simplify_mixed]
  exact ⟨2, _, rfl, rfl, rfl⟩

end Simplify
end FlowVerifier
