import FlowVerifier.Proofs.Simplify.Edits
import FlowVerifier.Proofs.Simplify.Fusion
import FlowVerifier.Proofs.Symbolic.Simulation

/-!
# Fused blocks and the search

Where the search of a graph goes through a block and the one after it, the search of the
graph with the two fused makes one step.  In between the first search is ahead (`Midway`):
it has run the first half of the block that the second is about to enter.

The search notices nothing if no path comes back to the block that is gone.  The search
might have widened there what it knows.
-/

namespace FlowVerifier
namespace Symbolic

open Exec FlowGraph Simplify

variable {g g' : FlowGraph} {limits : SearchSettings} {into gone id : BlockId}
  {b tail c : Block} {p q : Path}

/-! ## Blocks that stay -/

theorem untouched_of_fused (h : Fused g g' into gone b tail) (hf : Fusible g into gone b tail)
    (hg : UniqueNames g) (hc : g.block? id = some c) {i : Instruction} (hi : i ∈ c.body) :
    Untouched { leads := Kept gone } g.idOf? g'.idOf? i where
  reads _ _ _ _ := List.not_mem_nil
  writes _ _ := List.not_mem_nil
  restores _ _ := List.not_mem_nil
  marks name heq := by
    have hbare : g.bare? id = some c.bare := bare?_of_block? hc
    have hname : name ≠ tail.name := by
      rintro rfl
      exact hf.unmarked hbare (heq ▸ hi)
    rcases h.namesAlike hf hg hname with ⟨hn, hn'⟩ | ⟨j, k, hn, hn', rfl, hj⟩
    · rw [hn, hn']
      exact ⟨rfl, by simp⟩
    · rw [hn, hn']
      refine ⟨rfl, fun k hk => ?_⟩
      obtain rfl := Option.some.inj hk
      exact ⟨rfl, hj⟩

/-- Only the terminator that is fused leads to the block that is gone. -/
theorem leadsAlike_of_fusible (hf : Fusible g into gone b tail) (hg : WellFormed g)
    (hc : g.block? id = some c) (hid : id ≠ into) :
    LeadsAlike { leads := Kept gone } c.terminator c.terminator := by
  refine .refl (fun t ht => ⟨rfl, ?_⟩) fun _ _ => List.not_mem_nil
  rintro rfl
  have hbare : g.bare? id = some c.bare := bare?_of_block? hc
  exact hid (hf.mergeable.only id (hg.target_live hbare ht).1)

/-- A block that is neither of the two is gone through alike. -/
theorem enteredAlike_of_fused (h : Fused g g' into gone b tail) (hf : Fusible g into gone b tail)
    (hg : Proper g) (hresult : g'.resultTypes = g.resultTypes) (hc : g.block? id = some c)
    (hgone : gone ≠ id) (hinto : into ≠ id) (hp : p.Alike { leads := Kept gone } q) :
    ∃ d, g'.block? id = some d ∧ d.populated = c.populated ∧
      EnteredAlike { leads := Kept gone } limits g g' id c d p q := by
  have hbare : g'.bare? id = g.bare? id := by rw [h.bare, if_neg hgone, if_neg hinto]
  rw [bare?, bare?, hc] at hbare
  obtain ⟨d, hd, hsame⟩ := Option.map_eq_some_iff.1 hbare
  obtain ⟨hpop, hfunction, hbody, hexit⟩ := fields_of_bare hsame
  refine ⟨d, hd, hpop, BlocksAlike.entered (.of_untouched hresult hfunction hbody
    (fun i hi => untouched_of_fused h hf hg.names hc hi) ?_) hp ⟨rfl, Ne.symm hgone⟩
      (p.covered_nil id)⟩
  rw [hexit]
  exact leadsAlike_of_fusible hf hg.wellFormed hc (Ne.symm hinto)

/-! ## The fused block -/

theorem executeAll_append (resolve : String → Option BlockId) (node : String)
    (xs ys : List Instruction) :
    executeAll resolve node (xs ++ ys) =
      (executeAll resolve node xs >>= fun _ => executeAll resolve node ys) := by
  induction xs with
  | nil => exact (pure_bind _ _).symm
  | cons i xs ih => rw [List.cons_append, executeAll_cons, executeAll_cons, ih, bind_assoc]

/-- The fused block is one half and then the other. -/
theorem runBlock_fused {c : Block} (hc : c.bare = (merged b tail).bare) :
    runBlock g' c = (executeAll g'.idOf? c.name b.body >>= fun _ =>
      executeAll g'.idOf? c.name tail.body >>= fun _ => leaveBy c.name tail.terminator) := by
  obtain ⟨-, -, hbody, hexit⟩ := fields_of_bare hc
  rw [runBlock_eq, hbody, hexit]
  show (executeAll _ _ (b.body ++ tail.body) >>= _) = _
  rw [executeAll_append, bind_assoc]
  rfl

/-- The first search is about to enter the second half of a fused block, and the second
search the whole block `c`. -/
structure Halfway (limits : SearchSettings) (g' : FlowGraph) (into gone : BlockId) (b c : Block)
    (a a' : Prospect) : Prop where
  behind : a.block = gone
  ahead : a'.block = into
  left : a.left < a'.left
  runs : (a'.path.enter into limits.maxWidenings).1.runs = true
  ran : ∃ t, outcome (executeAll g'.idOf? c.name b.body)
    ⟨(a'.path.enter into limits.maxWidenings).2, #[]⟩ = (.ok (), t) ∧
      a.path.Alike { leads := Kept gone } t.path

/-- Unless the first half runs on both sides, the blocks are gone through alike. -/
theorem enteredAlike_of_failing (hcb : c.bare = (merged b tail).bare)
    (hresult : g'.resultTypes = g.resultTypes)
    (hbodies : Matches (fun _ p' _ q' => p'.Alike { leads := Kept gone } q')
      (outcome (executeAll g.idOf? b.name b.body) ⟨(p.enter into limits.maxWidenings).2, #[]⟩)
      (outcome (executeAll g'.idOf? c.name b.body) ⟨(q.enter into limits.maxWidenings).2, #[]⟩))
    (hfails : ∀ t, outcome (executeAll g.idOf? b.name b.body)
      ⟨(p.enter into limits.maxWidenings).2, #[]⟩ = (.ok (), t) →
      (p.enter into limits.maxWidenings).1.runs = false) :
    EnteredAlike { leads := Kept gone } limits g g' into b c p q := by
  obtain ⟨-, hfunction, -, -⟩ := fields_of_bare hcb
  refine ⟨by rw [hfunction, returnType?_congr hresult]; rfl, fun hruns => ?_⟩
  show Matches _ (outcome (runBlock g b) _) (outcome (runBlock g' c) _)
  rw [runBlock_eq, runBlock_fused hcb]
  rcases hx : outcome (executeAll g.idOf? b.name b.body)
    ⟨(p.enter into limits.maxWidenings).2, #[]⟩ with ⟨r, t⟩
  rcases hy : outcome (executeAll g'.idOf? c.name b.body)
    ⟨(q.enter into limits.maxWidenings).2, #[]⟩ with ⟨r', t'⟩
  rw [hx, hy] at hbodies
  cases hbodies with
  | ok _ => exact absurd hruns (by simp [hfails t hx])
  | error he =>
      rw [outcome_bind_error hx, outcome_bind_error hy]
      exact .error he

variable {F F' next others others' : Frontier Prospect} {a a' : Prospect} {f f₁ : Findings}

/-- **The first half**: it fails on both sides, or the first search is halfway. -/
theorem proceed_into (h : Fused g g' into gone b tail) (hf : Fusible g into gone b tail)
    (hg : UniqueNames g) (hresult : g'.resultTypes = g.resultTypes) (hc : g'.block? into = some c)
    (hcb : c.bare = (merged b tail).bare) (ha : a.Alike { leads := Kept gone } a')
    (hinto : a.block = into) (ho : Frontier.Alike { leads := Kept gone } others others')
    (hs : proceed g limits a others f = (.ok next, f₁)) (ht : f₁.truncated = false)
    (f' : Findings) :
    (∃ a₁, next = { others with pending := a₁ :: others.pending } ∧
      Halfway limits g' into gone b c a₁ a' ∧ SameNews f f₁ f' f') ∨
    ∃ next' f₁', proceed g' limits a' others' f' = (.ok next', f₁') ∧
      Frontier.Alike { leads := Kept gone } next next' ∧ SameNews f f₁ f' f₁' := by
  obtain ⟨hsame, -⟩ := ha.block
  have hself : Kept gone into into := ⟨rfl, hf.mergeable.distinct⟩
  subst hinto
  have hb := hf.mergeable.head
  obtain ⟨hpop, -, -, -⟩ := fields_of_bare hcb
  obtain ⟨hverdict, henter⟩ := ha.path.enter hself (a.path.covered_nil _) limits.maxWidenings
  have htandem : Tandem (executeAll g.idOf? b.name b.body)
      (a.path.enter a.block limits.maxWidenings).2 (executeAll g'.idOf? c.name b.body)
      (a'.path.enter a.block limits.maxWidenings).2 fun _ p' _ q' =>
        p'.Alike { leads := Kept gone } q' :=
    tandem_executeAll henter fun i hi => untouched_of_fused h hf hg hb hi
  have hbodies := htandem #[] #[]
  by_cases hfails : ∀ t, outcome (executeAll g.idOf? b.name b.body)
      ⟨(a.path.enter a.block limits.maxWidenings).2, #[]⟩ = (.ok (), t) →
      (a.path.enter a.block limits.maxWidenings).1.runs = false
  · refine .inr (proceed_alike ha hsame.symm hself ho hs ht (a.path.covered_nil _)
      (fun c' hc' => ?_) f')
    obtain rfl := Option.some.inj (hb.symm.trans hc')
    exact ⟨c, hc, hpop, fun _ => enteredAlike_of_failing hcb hresult hbodies hfails⟩
  · push Not at hfails
    obtain ⟨t, hran, hruns⟩ := hfails
    rw [Ne, Bool.not_eq_false] at hruns
    obtain ⟨left, hl, rfl, hlog⟩ :=
      proceed_of_jump hb hf.mergeable.jumps hruns hran hs ht hf.populated
    refine .inl ⟨_, rfl, ⟨rfl, hsame.symm, ?_, hverdict ▸ hruns, ?_⟩, .silent hlog rfl rfl⟩
    · have hle := ha.left
      rw [hl] at hle
      exact hle
    · rcases hy : outcome (executeAll g'.idOf? c.name b.body)
        ⟨(a'.path.enter a.block limits.maxWidenings).2, #[]⟩ with ⟨r', t'⟩
      rw [hran, hy] at hbodies
      cases hbodies with
      | ok h => exact ⟨t', rfl, h⟩

/-- **The second half**: the second search goes through the whole block. -/
theorem proceed_gone (h : Fused g g' into gone b tail) (hf : Fusible g into gone b tail)
    (hg : Proper g) (hc : g'.block? into = some c) (hcb : c.bare = (merged b tail).bare)
    (ha : Halfway limits g' into gone b c a a')
    (ho : Frontier.Alike { leads := Kept gone } others others')
    (hnew : a.path.visits.get? (a.block, a.path.stack.topMarker?) = none)
    (hs : proceed g limits a others f = (.ok next, f₁)) (ht : f₁.truncated = false)
    (f' : Findings) :
    ∃ next' f₁', proceed g' limits a' others' f' = (.ok next', f₁') ∧
      Frontier.Alike { leads := Kept gone } next next' ∧ SameNews f f₁ f' f₁' := by
  obtain ⟨t, hran, hpath⟩ := ha.ran
  have htail := hf.mergeable.found
  rw [← ha.behind] at htail
  have hgone : ¬ Kept gone a.block a.block := fun hk => hk.2 ha.behind
  obtain ⟨hfirst, henter⟩ := hpath.enter_left hgone hnew limits.maxWidenings
  have hruns : (a.path.enter a.block limits.maxWidenings).1.runs = true := by rw [hfirst]; rfl
  -- both searches run the second half and leave by its terminator
  have hmatches : Matches (fun sides _ sides' _ => SidesAlike { leads := Kept gone } sides sides')
      ((runBlock g tail).runOn (a.path.enter a.block limits.maxWidenings).2)
      ((runBlock g' c).runOn (a'.path.enter a'.block limits.maxWidenings).2) := by
    show Matches _ (outcome (runBlock g tail) _) (outcome (runBlock g' c) _)
    rw [runBlock_eq, runBlock_fused hcb, ha.ahead, outcome_bind_ok hran]
    refine ((tandem_executeAll henter fun i hi =>
      untouched_of_fused h hf hg.names htail hi).bind ?_) #[] t.warnings
    rintro _ p' _ q' h'
    exact tandem_leaveBy h' (leadsAlike_of_fusible hf hg.wellFormed hf.mergeable.found
      (Ne.symm hf.mergeable.distinct))
  obtain ⟨c', hc', hcases⟩ := proceed_cases hs ht
  obtain rfl := Option.some.inj (htail.symm.trans hc')
  rcases hcases with ⟨hnp, -, -⟩ | ⟨-, left, sides, hl, hv, hover, rfl⟩
  · exact absurd hf.tailPopulated (by simp [hnp])
  · rw [visit_runs hf.tailPopulated hruns] at hv
    obtain ⟨sides', f₁', hv', hsides, hnews⟩ :=
      conclude_alike hmatches hv (f'.enter a'.block a'.path) c
    have hpop : c.populated = true := (fields_of_bare hcb).1.trans hf.populated
    rw [← ha.ahead] at hc
    have hruns' : (a'.path.enter a'.block limits.maxWidenings).1.runs = true := by
      rw [ha.ahead]
      exact ha.runs
    rw [← visit_runs hpop hruns'] at hv'
    obtain ⟨left', hl', hle⟩ : ∃ left', a'.left = left' + 1 ∧ left ≤ left' := by
      have hlt := ha.left
      exact ⟨a'.left - 1, by omega, by omega⟩
    have hprospects := hsides.prospects hle
    rw [ho.overflows hprospects] at hover
    exact ⟨_, _, proceed_of_visit hc hl' hv' hover, ho.advance hprospects _,
      hnews.errors, hnews.complete⟩

/-! ## The pass -/

/-- The searches of a graph and of the graph with two blocks fused. -/
theorem searchedAlike_of_fused (h : Fused g g' into gone b tail)
    (hf : Fusible g into gone b tail) (hg : Proper g) (hresult : g'.resultTypes = g.resultTypes)
    (honce : EnteredOnce g limits gone) : SearchedAlike limits g g' := by
  have hinto : g'.bare? into = some (merged b tail).bare := by
    rw [h.bare, if_neg (Ne.symm hf.mergeable.distinct), if_pos rfl]
  obtain ⟨c, hc, hcb⟩ := Option.map_eq_some_iff.1 hinto
  refine searchedAlike_of_simulation (R := fun F F' =>
    Frontier.Alike { leads := Kept gone } F F' ∨ ∃ a rest a' rest', F.pending = a :: rest ∧
      F'.pending = a' :: rest' ∧ Halfway limits g' into gone b c a a' ∧
      Frontier.Alike { leads := Kept gone } { F with pending := rest }
        { F' with pending := rest' }) ?_ (h.first.trans ·) ?_ ?_
  · intro first hfirst
    refine ⟨first, h.first.trans hfirst, .inl ⟨.cons ⟨⟨rfl, ?_⟩, .start, le_rfl⟩ .nil, rfl⟩⟩
    rintro rfl
    exact hf.mergeable.first hfirst
  · rintro F F' (hR | ⟨a, rest, a', rest', hp, -⟩) hnil
    · exact hR.nil hnil
    · exact absurd hp (by simp [hnil])
  · rintro F F' a rest next f f₁ hF (hR | ⟨a₁, rest₁, a', rest', hp₁, hp', hhalf, hrest⟩) hp hs ht
      - f'
    · obtain ⟨a', rest', hp', ha, hrest⟩ := hR.cons hp
      obtain ⟨hblock, hkept⟩ := ha.block
      by_cases hai : a.block = into
      · rcases proceed_into h hf hg.names hresult hc hcb ha hai hrest hs ht f' with
          ⟨a₁, rfl, hhalf, hnews⟩ | ⟨next', f₁', hs', hnext, hnews⟩
        · exact .inl ⟨.inr ⟨a₁, rest, a', rest', rfl, hp', hhalf, hrest⟩, hnews⟩
        · exact .inr ⟨a', rest', next', f₁', hp', hs', .inl hnext, hnews⟩
      · have hblocks : ∀ d, g.block? a.block = some d → ∃ d', g'.block? a.block = some d' ∧
            d'.populated = d.populated ∧ (f₁.isReached a.block = true →
              EnteredAlike { leads := Kept gone } limits g g' a.block d d' a.path a'.path) := by
          intro d hd
          obtain ⟨d', hd', hpop, hentered⟩ := enteredAlike_of_fused h hf hg hresult hd
            (Ne.symm hkept) (Ne.symm hai) ha.path
          exact ⟨d', hd', hpop, fun _ => hentered⟩
        obtain ⟨next', f₁', hs', hnext, hnews⟩ := proceed_alike ha hblock.symm ⟨rfl, hkept⟩ hrest hs
          ht (a.path.covered_nil _) hblocks f'
        exact .inr ⟨a', rest', next', f₁', hp', hs', .inl hnext, hnews⟩
    · rw [hp₁] at hp
      obtain ⟨rfl, rfl⟩ := List.cons.inj hp
      have hnew := honce F f a₁ rest₁ hF hp₁ hhalf.behind
      rw [← hhalf.behind] at hnew
      obtain ⟨next', f₁', hs', hnext, hnews⟩ :=
        proceed_gone h hf hg hc hcb hhalf hrest hnew hs ht f'
      exact .inr ⟨a', rest', next', f₁', hp', hs', .inl hnext, hnews⟩

/-- **Fusing two blocks** goes unnoticed by the search, if no path comes back to the block
that is gone. -/
theorem searchedAlike_fuseBlock (hg : Proper g) (honce : EnteredOnce g limits id) :
    SearchedAlike limits g (g.after (fuseBlock id)) := by
  have hgraph : outcome Transform.graph { graph := g } = (.ok g, { graph := g }) := rfl
  cases htarget : fusionTarget? g id with
  | none =>
      have hsame : g.after (fuseBlock id) = g := by
        show (outcome (fuseBlock id) { graph := g }).2.graph = g
        rw [fuseBlock, outcome_bind_ok hgraph, htarget]
        rfl
      rw [hsame]
      exact .refl limits g
  | some pred =>
      obtain ⟨b, tail, hf⟩ := fusible_of_fusionTarget? hg.wellFormed htarget
      have hafter : g.after (fuseBlock id) = g.mergeResult pred id tail := by
        show (outcome (fuseBlock id) { graph := g }).2.graph = _
        rw [fuseBlock, outcome_bind_ok hgraph, htarget]
        dsimp only
        rw [outcome_bind_ok (outcome_edit (outcome_mergeInto hg.wellFormed hf.mergeable))]
        rfl
      have hresult : (g.mergeResult pred id tail).resultTypes = g.resultTypes :=
        hafter ▸ keepsResults_apply .fusion id { graph := g }
      rw [hafter]
      exact searchedAlike_of_fused (.mergeResult hf)
        hf hg hresult honce

end Symbolic
end FlowVerifier
