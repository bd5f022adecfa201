import FlowVerifier.Proofs.Reports
import FlowVerifier.Proofs.Simplify.Worklist
import FlowVerifier.Proofs.Symbolic.Exploration
import Mathlib

/-!
# Reports that are computed

A report on a program with known blocks can be computed, but most of it is of no interest here:
what matters is whether it is clean, and whether the search was cut short (`Reports`).

* `meetsMistake?` is a search that writes nothing down and gives up where it would be cut short.
  `explore_of_meetsMistake` says that it decides what the search reports.
* `reports_of_search`: so it decides whether the report is clean.
-/

namespace FlowVerifier
namespace Symbolic

variable {g : FlowGraph} {limits : SearchSettings} {b : Block} {id : BlockId} {p : Path}
  {sides : List Side} {mistaken : Bool} {F : Frontier Prospect} {n : Nat}

/-! ## Searches that are cut nowhere -/

/-- The ways on which a path leaves a block, and whether it meets a mistake in it. -/
def waysOn : Except Error (List Side) → Option (List Side × Bool)
  | .ok sides => some (sides, false)
  | .error (.program _) => some ([], true)
  | .error _ => none

/-- The same of a path that is about to enter the block; none if it is cut short there. -/
def waysThrough (g : FlowGraph) (limits : SearchSettings) (b : Block) (id : BlockId) (p : Path) :
    Option (List Side × Bool) :=
  if b.populated then
    match p.enter id limits.maxWidenings with
    | (.subsumed, _) => some ([], false)
    | (.exhausted, _) => none
    | (.recursion, p) => waysOn ((skipCall g b).runOn p).1
    | (_, p) => waysOn ((runBlock g b).runOn p).1
  else some ([], true)

/-- Does a search meet a mistake?  None if it is cut short, or takes more steps than `n`. -/
def meetsMistake? (g : FlowGraph) (limits : SearchSettings) :
    Nat → Frontier Prospect → Option Bool
  | 0, F => if F.pending.isEmpty then some false else none
  | n + 1, F =>
    match F.pending with
    | [] => some false
    | a :: rest =>
      match a.left, g.block? a.block with
      | left + 1, some b =>
        match waysThrough g limits b a.block a.path with
        | some (sides, mistaken) =>
          let others : Frontier Prospect := { F with pending := rest }
          if others.overflows limits.maxPaths (prospects left sides) then none
          else
            let next := others.advance limits.maxPaths (prospects left sides)
            (meetsMistake? g limits n next).map (mistaken || ·)
        | none => none
      | _, _ => none

theorem conclude_of_waysOn {r : Except Error (List Side) × Trace}
    (h : waysOn r.1 = some (sides, mistaken)) (f : Findings) (b : Block) :
    ∃ f', f.conclude b r = (.ok sides, f') ∧ f'.truncated = f.truncated ∧
      f'.log.has .error = (f.log.has .error || mistaken) := by
  obtain ⟨outcome, trace⟩ := r
  cases outcome with
  | ok sides =>
      cases h
      exact ⟨f.warn b trace.warnings, rfl, rfl, by simp [Findings.warn]⟩
  | error e =>
      cases e with
      | program e =>
          cases h
          exact ⟨(f.warn b trace.warnings).mistake b e, rfl, rfl,
            by simp [Findings.warn, Findings.mistake]⟩
      | _ => cases h

theorem visit_of_waysThrough (h : waysThrough g limits b id p = some (sides, mistaken))
    (f : Findings) :
    ∃ f', visit g limits b id p f = (.ok sides, f') ∧ f'.truncated = f.truncated ∧
      f'.log.has .error = (f.log.has .error || mistaken) := by
  unfold waysThrough at h
  unfold visit
  split at h
  · rename_i hb
    rw [if_pos hb]
    generalize p.enter id limits.maxWidenings = entered at h ⊢
    obtain ⟨verdict, p'⟩ := entered
    cases verdict with
    | subsumed =>
        cases h
        exact ⟨f.enter id p, rfl, rfl, by simp [Findings.enter]⟩
    | exhausted => cases h
    | _ => exact conclude_of_waysOn h (f.enter id p) b
  · rename_i hb
    rw [if_neg hb]
    cases h
    exact ⟨_, rfl, rfl, by simp [Findings.mistake]⟩

/-- **A search that is cut nowhere** reports a mistake exactly if it meets one. -/
theorem explore_of_meetsMistake (h : meetsMistake? g limits n F = some mistaken) (f : Findings) :
    ∃ paths f', explore g limits F f = (.ok paths, f') ∧ f'.truncated = f.truncated ∧
      f'.log.has .error = (f.log.has .error || mistaken) := by
  induction n generalizing F f mistaken with
  | zero =>
      unfold meetsMistake? at h
      split at h
      · rename_i hp
        cases h
        exact ⟨_, f, explore_nil (List.isEmpty_iff.1 hp) f, rfl, by simp⟩
      · cases h
  | succ n ih =>
      unfold meetsMistake? at h
      split at h
      · rename_i hp
        cases h
        exact ⟨_, f, explore_nil hp f, rfl, by simp⟩
      · rename_i a rest hp
        split at h
        · rename_i left b hleft hb
          split at h
          · rename_i sides mistaken₁ hways
            dsimp only at h
            split at h
            · cases h
            · rename_i hroom
              obtain ⟨mistaken₂, hrest, rfl⟩ := Option.map_eq_some_iff.1 h
              obtain ⟨f₁, hvisit, htruncated, herror⟩ := visit_of_waysThrough hways f
              obtain ⟨paths, f', hexplore, htruncated', herror'⟩ := ih hrest f₁
              refine ⟨paths, f', ?_, htruncated'.trans htruncated, ?_⟩
              · rw [explore_cons hp hb hleft, hvisit]
                dsimp only
                rw [if_neg hroom, hexplore]
              · rw [herror', herror, Bool.or_assoc]
          · cases h
        · cases h

/-- Does the search of a program meet a mistake? -/
def searchMeetsMistake? (g : FlowGraph) (limits : SearchSettings) (n : Nat) : Option Bool :=
  g.first.bind fun first => meetsMistake? g limits n ⟨[⟨first, .start, limits.maxDepth⟩], 1⟩

theorem search_of_meetsMistake (h : searchMeetsMistake? g limits n = some mistaken) :
    ∃ summary, (searchFrom g limits .empty).1 = .ok summary ∧ summary.truncated = false ∧
      g.hasMistakenPath limits = mistaken := by
  obtain ⟨first, hfirst, hmeets⟩ := Option.bind_eq_some_iff.1 h
  obtain ⟨paths, f, hexplore, htruncated, herror⟩ :=
    explore_of_meetsMistake hmeets { log := .empty }
  have hsearch : searchFrom g limits .empty =
      (.ok { paths, truncated := f.truncated, results := f.results }, f.log) := by
    simp only [searchFrom, hfirst, hexplore]
  refine ⟨_, congrArg Prod.fst hsearch, htruncated, ?_⟩
  rw [FlowGraph.hasMistakenPath, hsearch, herror, Log.has_empty, Bool.false_or]

end Symbolic

/-! ## Reports -/

open Symbolic

/-- The verification succeeds, its search is not cut short, and its report is clean or
not. -/
def Reports (s : Settings) (g : FlowGraph) (clean : Bool) : Prop :=
  ∃ r g', verify s g = (.ok r, g') ∧ r.search.truncated = false ∧ r.isClean = clean

theorem reports_of_eval {s : Settings} {g : FlowGraph} {clean : Bool}
    (h : ((verify s g).1.toOption.map fun r => (r.search.truncated, r.isClean)) =
      some (false, clean)) : Reports s g clean := by
  rcases hv : verify s g with ⟨r, g'⟩
  rw [hv] at h
  cases r with
  | error e => exact absurd h (by simp [Except.toOption])
  | ok r =>
      obtain ⟨ht, hc⟩ := Prod.mk.inj (Option.some.inj h)
      exact ⟨r, g', hv, ht, hc⟩

/-- A verification that neither removes dead code nor looks for termination arguments. -/
theorem reports_of_stages {s : Settings} {g : FlowGraph} {stats : Simplify.Stats}
    {w : Workspace} {loops : LoopForest} {summary : SearchSummary} {tests paths : Bool}
    (hsimplify : outcome (Simplify.simplify s.simplify) { graph := g } = (.ok stats, w))
    (htests : w.log.has .error = tests) (hloops : LoopForest.ofGraph w.graph = .ok loops)
    (hsearch : (searchFrom w.graph s.search .empty).1 = .ok summary)
    (hcomplete : summary.truncated = false)
    (hpaths : w.graph.hasMistakenPath s.search = paths)
    (hprune : s.search.eliminateDeadCode = false) (htermination : s.validateTermination = false)
    (hpost : s.postSimplify = false) : Reports s g (!(tests || paths)) := by
  have hgraph : outcome Transform.graph w = (.ok w.graph, w) := rfl
  obtain ⟨_, w₁, hreport, hsame⟩ := silent_reportLoops loops w
  obtain ⟨r, d, hlogs⟩ := searchFrom_log w.graph s.search
  obtain ⟨log₁, h₁, -⟩ := hlogs w₁.log
  obtain ⟨log₀, h₀, -⟩ := hlogs .empty
  rw [h₀] at hsearch
  obtain rfl : r = .ok summary := hsearch
  have hfound : outcome (Symbolic.search s.search) w₁ = (.ok summary, { w₁ with log := log₁ }) := by
    rw [outcome_search, hsame, h₁]
  have hanalyse : outcome (analyse s) w = (.ok (loops, summary, []), { w₁ with log := log₁ }) := by
    rw [analyse, outcome_bind_ok hgraph, hloops, outcome_bind_ok (outcome_liftExcept _ _),
      outcome_bind_ok hreport, searchAndPrune, bind_assoc, outcome_bind_ok hfound]
    simp only [hprune, htermination, Bool.false_eq_true, if_false, pure_bind]
    rfl
  have hstages : (verifyStages s).runOn { graph := g } = (.ok
      { log := log₁, loops, verdicts := [], search := summary, simplify := stats,
        postSimplify := none }, { w₁ with log := log₁ }) := by
    show outcome _ _ = _
    rw [verifyStages_eq_analyse, outcome_bind_ok hsimplify, outcome_bind_ok hanalyse, complete]
    simp only [hpost, Bool.false_eq_true, if_false, pure_bind]
    rfl
  have herror := (outcome_analyse hanalyse).1
  rw [htests, hpaths] at herror
  exact ⟨_, w₁.graph, by rw [verify, hstages], hcomplete, congrArg not herror⟩

/-- Its report is clean exactly if neither the simplifications nor the search meet a
mistake. -/
theorem reports_of_search {s : Settings} {g : FlowGraph} {n : Nat} {tests mistaken : Bool}
    (hproper : Simplify.Proper g) (htests : g.hasMistakenTest s.simplify = tests)
    (hloops : (LoopForest.ofGraph (g.simplified s.simplify)).toOption.isSome = true)
    (hmeets : searchMeetsMistake? (g.simplified s.simplify) s.search n = some mistaken)
    (hprune : s.search.eliminateDeadCode = false) (htermination : s.validateTermination = false)
    (hpost : s.postSimplify = false) : Reports s g (!(tests || mistaken)) := by
  obtain ⟨stats, w, hsimplify, -⟩ := Simplify.sound_simplify s.simplify { graph := g } hproper
  have hgraph : g.simplified s.simplify = w.graph := congrArg (·.2.graph) hsimplify
  rw [hgraph] at hloops hmeets
  have htests : w.log.has .error = tests := by
    rw [← htests]
    exact (congrArg (·.2.log.has .error) hsimplify).symm
  obtain ⟨summary, hsearch, hcomplete, hpaths⟩ := search_of_meetsMistake hmeets
  cases hforest : LoopForest.ofGraph w.graph with
  | error e =>
      rw [hforest] at hloops
      cases hloops
  | ok loops =>
      exact reports_of_stages hsimplify htests hforest hsearch hcomplete hpaths hprune htermination
        hpost

end FlowVerifier
