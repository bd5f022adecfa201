import FlowVerifier.Proofs.Symbolic.Continuing
import FlowVerifier.Proofs.Symbolic.Exploration
import Mathlib

/-!
# Where a path leads

A search follows a path into its block, and then the ways on.  This file says what one such step
does to the frontier of the search, what it notes, and what it makes of the path.

* `Frontier.perm_follow`: no side of a split is lost, it waits or is given up.
  `Frontier.effort_follow_lt` is the measure that every step lowers.
* `onward` is what a path leads to when it enters its block.  `GoesThrough.mem_onward` says that
  no way out of the block is missing there, and `mem_onward_of_forksTo` that no possible side of
  a branch is.
* `proceed_eq_ok`: a step of a search follows `onward`, and notes what a cap cuts off.
* `GoesThrough.leadsTo`: the ways on lead where the terminator of the block says.
* `continues_onward`: what a path leads to goes on from the path that has entered the block, and
  so `depth_onward`: with every step the path has entered one block more.
-/

namespace FlowVerifier
namespace Symbolic

/-! ## Following a way -/

namespace Frontier

variable {α β : Type} {f : Frontier α} {weight : α → Nat} {cap : Nat}

/-- The frontier after a way was followed to its sides.  If too many sides are new, all ways
but the one that goes on are given up. -/
def follow (f : Frontier α) (cap : Nat) (sides : List α) : Frontier α :=
  if f.overflows cap sides then (f.advance cap sides).narrowed else f.advance cap sides

/-- The ways that are given up then. -/
def dropped (f : Frontier α) (cap : Nat) (sides : List α) : List α :=
  if f.overflows cap sides then
    (f.advance cap sides).pending.drop 1 ++ sides.dropLast.drop (f.room cap)
  else []

/-- The sides for which there is no room. -/
def refused (f : Frontier α) (cap : Nat) (sides : List α) : List α :=
  sides.dropLast.drop (f.room cap)

/-- The frontier of the images. -/
def map (g : α → β) (f : Frontier α) : Frontier β := ⟨f.pending.map g, f.started⟩

theorem overflows_map (g : α → β) (f : Frontier α) (cap : Nat) (sides : List α) :
    (f.map g).overflows cap (sides.map g) = f.overflows cap sides :=
  decide_eq_decide.2 (by rw [List.length_map]; rfl)

theorem advance_map (g : α → β) (f : Frontier α) (cap : Nat) (sides : List α) :
    (f.map g).advance cap (sides.map g) = (f.advance cap sides).map g := by
  simp [advance, room, map, List.map_reverse, List.map_take, List.map_dropLast,
    Option.toList_map]

theorem follow_map (g : α → β) (f : Frontier α) (cap : Nat) (sides : List α) :
    (f.map g).follow cap (sides.map g) = (f.follow cap sides).map g := by
  rw [follow, follow, overflows_map, advance_map]
  split
  · simp [narrowed, map, List.map_take]
  · rfl

theorem refused_eq_nil_iff {sides : List α} :
    f.refused cap sides = [] ↔ f.overflows cap sides = false := by
  rw [refused, List.drop_eq_nil_iff, List.length_dropLast]
  simp [overflows]

theorem dropped_eq_nil_iff {sides : List α} :
    f.dropped cap sides = [] ↔ f.overflows cap sides = false := by
  unfold dropped
  split
  · rename_i h
    have hlt : f.room cap < sides.dropLast.length := by
      rw [List.length_dropLast]
      simpa [overflows] using h
    simp only [List.append_eq_nil_iff, List.drop_eq_nil_iff, h, Bool.true_eq_false, iff_false]
    omega
  · rename_i h
    simp [h]

/-- Every side and every other way waits, or is refused. -/
theorem perm_advance (f : Frontier α) (cap : Nat) (sides : List α) :
    ((f.advance cap sides).pending ++ f.refused cap sides).Perm (sides ++ f.pending) := by
  have hsides : sides = sides.dropLast.take (f.room cap) ++ sides.dropLast.drop (f.room cap) ++
      sides.getLast?.toList := by
    rw [List.take_append_drop]
    cases hl : sides.getLast? with
    | none => simp [List.getLast?_eq_none_iff.1 hl]
    | some x => exact (List.dropLast_append_getLast? x hl).symm
  classical
  refine List.perm_iff_count.2 fun x => ?_
  conv_rhs => rw [hsides]
  simp only [advance, refused, List.count_append, List.count_reverse]
  omega

/-- **Nothing is lost**: every side and every other way waits, or is given up. -/
theorem perm_follow (f : Frontier α) (cap : Nat) (sides : List α) :
    ((f.follow cap sides).pending ++ f.dropped cap sides).Perm (sides ++ f.pending) := by
  have hall := f.perm_advance cap sides
  unfold follow dropped
  split
  · refine .trans ?_ hall
    rw [← List.append_assoc]
    exact .of_eq (by rw [narrowed, List.take_append_drop, refused])
  · rename_i h
    rwa [refused_eq_nil_iff.2 (by simpa using h)] at hall

/-! ### Effort -/

/-- How many steps a search can still make: a way that may be started takes no more than `d`
of them and one to end, and so does a way that was started. -/
def effort (weight : α → Nat) (cap d : Nat) (f : Frontier α) : Nat :=
  f.room cap * (d + 1) + work weight f.pending

theorem work_le {ways : List α} {k : Nat} (h : ∀ way ∈ ways, weight way + 1 ≤ k) :
    work weight ways ≤ ways.length * k := by
  induction ways with
  | nil => simp [work]
  | cons way ways ih =>
      have hway := h way (List.mem_cons_self ..)
      have hways := ih fun way' h' => h way' (List.mem_cons_of_mem _ h')
      simp only [work, List.length_cons, Nat.add_mul, Nat.one_mul]
      omega

/-- Going on to sides on which less is left lowers what a search can still do. -/
theorem effort_advance_lt (f : Frontier α) (cap : Nat) {d : Nat} {way : α} {sides : List α}
    (h : ∀ side ∈ sides, weight side < weight way) (hd : weight way ≤ d) :
    (f.advance cap sides).effort weight cap d <
      f.room cap * (d + 1) + work weight (way :: f.pending) := by
  have hlast : work weight sides.getLast?.toList ≤ weight way := by
    cases hl : sides.getLast? with
    | none => exact Nat.zero_le _
    | some side =>
        have := h side (List.mem_of_getLast? hl)
        simpa [work] using this
  have hnew : work weight (sides.dropLast.take (f.room cap)).reverse ≤
      (sides.dropLast.take (f.room cap)).length * (d + 1) := by
    rw [← List.length_reverse]
    refine work_le fun side hside => ?_
    have := h side (List.dropLast_subset _ (List.mem_of_mem_take (List.mem_reverse.1 hside)))
    omega
  have hle : (sides.dropLast.take (f.room cap)).length ≤ f.room cap := List.length_take_le _ _
  have hroom : (f.advance cap sides).room cap =
      f.room cap - (sides.dropLast.take (f.room cap)).length := by
    simp only [room, advance]
    omega
  have hsplit : f.room cap * (d + 1) =
      (f.room cap - (sides.dropLast.take (f.room cap)).length) * (d + 1) +
        (sides.dropLast.take (f.room cap)).length * (d + 1) := by
    rw [← Nat.add_mul, Nat.sub_add_cancel hle]
  rw [effort, hroom, hsplit]
  simp only [advance, work_append, work]
  omega

/-- **Effort.**  Following a way to sides on which less is left lowers what a search can still
do. -/
theorem effort_follow_lt (f : Frontier α) (cap : Nat) {d : Nat} {way : α} {sides : List α}
    (h : ∀ side ∈ sides, weight side < weight way) (hd : weight way ≤ d) :
    (f.follow cap sides).effort weight cap d <
      f.room cap * (d + 1) + work weight (way :: f.pending) := by
  unfold follow
  split
  · refine Nat.lt_of_le_of_lt ?_ (f.effort_advance_lt cap h hd)
    exact Nat.add_le_add_left (work_take_le weight 1 _) _
  · exact f.effort_advance_lt cap h hd

theorem started_advance_le (f : Frontier α) (cap : Nat) (sides : List α) :
    (f.advance cap sides).started ≤ max f.started cap := by
  have hle := List.length_take_le (f.room cap) sides.dropLast
  simp only [advance]
  simp only [room] at hle ⊢
  omega

theorem started_follow_le (f : Frontier α) (cap : Nat) (sides : List α) :
    (f.follow cap sides).started ≤ max f.started cap := by
  unfold follow
  split
  · exact f.started_advance_le cap sides
  · exact f.started_advance_le cap sides

/-- A way that goes on stays one way, and every other side is started. -/
theorem length_advance (f : Frontier α) (cap : Nat) (sides : List α) :
    (f.advance cap sides).pending.length + f.started =
      sides.getLast?.toList.length + f.pending.length + (f.advance cap sides).started := by
  simp only [advance, List.length_append, List.length_reverse]
  omega

/-- A way that goes on stays one way, and every other side counts as started. -/
theorem length_follow_le (f : Frontier α) (cap : Nat) (sides : List α) :
    (f.follow cap sides).pending.length + f.started ≤
      sides.getLast?.toList.length + f.pending.length + (f.follow cap sides).started := by
  have hadvance := f.length_advance cap sides
  unfold follow
  split
  · have hle : (f.advance cap sides).narrowed.pending.length ≤
        (f.advance cap sides).pending.length := List.length_take_le' _ _
    show _ ≤ _ + (f.advance cap sides).started
    omega
  · exact Nat.le_of_eq hadvance

end Frontier
open Exec

variable {g : FlowGraph} {limits : SearchSettings} {p q : Prospect} {f f' : Findings} {b : Block}
  {id : BlockId}

/-! ## Entering a block -/

/-- Does the path enter a block of the program? -/
def Prospect.enters (g : FlowGraph) (p : Prospect) : Bool :=
  (g.block? p.block).any Block.populated && decide (0 < p.left)

/-- A path that a cap stops before its block, or in it: it may enter no more blocks, or would
have to be widened once too often. -/
def Prospect.Stopped (g : FlowGraph) (limits : SearchSettings) (p : Prospect) : Prop :=
  ∃ b, g.block? p.block = some b ∧ b.populated = true ∧
    (p.left = 0 ∨ (p.path.enter p.block limits.maxWidenings).1 = .exhausted)

/-- The ways on which a path goes on after it has entered its block. -/
def onward (g : FlowGraph) (limits : SearchSettings) (p : Prospect) : List Prospect :=
  match g.block? p.block, p.left with
  | some b, left + 1 =>
    match (visit g limits b p.block p.path { log := {} }).1 with
    | .ok sides => prospects left sides
    | .error _ => []
  | _, _ => []

/-- How often a block was entered. -/
def Findings.visits (f : Findings) (id : BlockId) : Nat :=
  ((f.results.get? id).map BlockResult.visits).getD 0

theorem visits_enter (f : Findings) (id other : BlockId) (p : Path) :
    (f.enter id p).visits other = f.visits other + if id = other then 1 else 0 := by
  unfold Findings.enter Findings.visits
  dsimp only
  rw [Table.get?_insert]
  by_cases h : id = other
  · subst h
    rw [if_pos rfl, if_pos rfl]
    cases f.results.get? id <;> simp
  · rw [if_neg h, if_neg h]
    rfl

theorem conclude_cases (f : Findings) (b : Block) (r : Except Error (List Side) × Trace) :
    (f.conclude b r).1 = (match r.1 with
      | .ok sides => .ok sides
      | .error (.program _) => .ok []
      | .error e => .error e) ∧
      (f.conclude b r).2.truncated = f.truncated ∧ (f.conclude b r).2.results = f.results := by
  unfold Findings.conclude
  rcases r with ⟨r, t⟩
  cases r with
  | ok sides => exact ⟨rfl, rfl, rfl⟩
  | error e => cases e <;> exact ⟨rfl, rfl, rfl⟩

/-- **What a visit takes down**: the entry, and that a widening would be one too many.  The ways
on do not depend on what was found before. -/
theorem visit_notes (g : FlowGraph) (limits : SearchSettings) (b : Block) (id : BlockId)
    (p : Path) (f : Findings) :
    (∀ f', (visit g limits b id p f').1 = (visit g limits b id p f).1) ∧
      ((visit g limits b id p f).2.truncated = true ↔ f.truncated = true ∨
        b.populated = true ∧ (p.enter id limits.maxWidenings).1 = .exhausted) ∧
      ∀ other, (visit g limits b id p f).2.visits other =
        f.visits other + if b.populated = true ∧ id = other then 1 else 0 := by
  unfold visit
  cases hb : b.populated with
  | false => exact ⟨fun _ => rfl, by simp [Findings.mistake], fun other => by simp; rfl⟩
  | true =>
      have hentry : ∀ {f' : Findings}, f'.results = (f.enter id p).results → ∀ other,
          f'.visits other = f.visits other + if True ∧ id = other then 1 else 0 := by
        intro f' h other
        simp only [true_and]
        rw [← visits_enter f id other p, Findings.visits, h, ← Findings.visits]
      have hrun : ∀ r : Except Error (List Side) × Trace,
          (∀ f' : Findings, ((f'.enter id p).conclude b r).1 = ((f.enter id p).conclude b r).1) ∧
          ((f.enter id p).conclude b r).2.truncated = f.truncated ∧
          ((f.enter id p).conclude b r).2.results = (f.enter id p).results := by
        intro r
        obtain ⟨hways, htruncated, hresults⟩ := conclude_cases (f.enter id p) b r
        exact ⟨fun f' => (conclude_cases _ b r).1.trans hways.symm, htruncated, hresults⟩
      simp only [if_true]
      rcases hp : p.enter id limits.maxWidenings with ⟨r, p'⟩
      cases r with
      | subsumed => exact ⟨fun _ => rfl, by simp [Findings.enter], hentry rfl⟩
      | exhausted => exact ⟨fun _ => rfl, by simp [Findings.truncate], hentry rfl⟩
      | recursion =>
          obtain ⟨hways, htruncated, hresults⟩ := hrun ((skipCall g b).runOn p')
          exact ⟨hways, by simp [htruncated], hentry hresults⟩
      | _ =>
          obtain ⟨hways, htruncated, hresults⟩ := hrun ((runBlock g b).runOn p')
          exact ⟨hways, by simp [htruncated], hentry hresults⟩

/-- **One step** of a search: the frontier follows the path to where it leads, and a cap that
cuts something off is noted. -/
theorem proceed_eq_ok {others next : Frontier Prospect}
    (h : proceed g limits p others f = (.ok next, f')) :
    next = others.follow limits.maxPaths (onward g limits p) ∧
      (f'.truncated = true ↔ f.truncated = true ∨ p.Stopped g limits ∨
        others.dropped limits.maxPaths (onward g limits p) ≠ []) ∧
      ∀ id, f'.visits id = f.visits id + if p.enters g = true ∧ p.block = id then 1 else 0 := by
  unfold proceed at h
  cases hb : g.block? p.block with
  | none => simp [hb] at h
  | some b =>
      rw [hb] at h
      dsimp only at h
      have hstopped : p.Stopped g limits ↔ b.populated = true ∧
          (p.left = 0 ∨ (p.path.enter p.block limits.maxWidenings).1 = .exhausted) := by
        simp [Prospect.Stopped, hb]
      cases hl : p.left with
      | zero =>
          rw [hl] at h
          cases h
          have hways : onward g limits p = [] := by simp [onward, hb, hl]
          rw [hways, hstopped]
          refine ⟨?_, ?_, fun id => ?_⟩
          · simp [Frontier.follow, Frontier.overflows, Frontier.advance]
          · cases hp : b.populated <;>
              simp [stopBefore, hp, hl, Findings.truncate, Findings.mistake, Frontier.dropped,
                Frontier.overflows]
          · have hresults : (stopBefore b f).results = f.results := by
              unfold stopBefore
              split <;> rfl
            simp [Findings.visits, hresults, Prospect.enters, hl]
      | succ left =>
          rw [hl] at h
          dsimp only at h
          obtain ⟨hways, htruncated, hvisits⟩ := visit_notes g limits b p.block p.path f
          rcases hv : visit g limits b p.block p.path f with ⟨r, f₁⟩
          rw [hv] at h hways htruncated hvisits
          cases r with
          | error e => cases h
          | ok sides =>
              have honward : onward g limits p = prospects left sides := by
                simp [onward, hb, hl, hways]
              have henters : p.enters g = b.populated := by simp [Prospect.enters, hb, hl]
              rw [honward, hstopped, henters]
              dsimp only at h htruncated hvisits
              split at h
              · rename_i hover
                cases h
                refine ⟨by rw [Frontier.follow, if_pos hover], ?_, hvisits⟩
                have hdropped : others.dropped limits.maxPaths (prospects left sides) ≠ [] := by
                  rw [ne_eq, Frontier.dropped_eq_nil_iff, hover]
                  simp
                simp [Findings.truncate, hdropped]
              · rename_i hover
                cases h
                refine ⟨by rw [Frontier.follow, if_neg hover], ?_, hvisits⟩
                have hdropped : others.dropped limits.maxPaths (prospects left sides) = [] :=
                  Frontier.dropped_eq_nil_iff.2 (by simpa using hover)
                simp [htruncated, hdropped, hl]

/-! ## Going through a block -/

/-- The path goes through its block, from what it is after the entry. -/
structure Prospect.GoesThrough (g : FlowGraph) (limits : SearchSettings) (p : Prospect) (b : Block)
    (entered : Path) : Prop where
  block : g.block? p.block = some b
  populated : b.populated = true
  left : 0 < p.left
  entry : ∃ r, p.path.enter p.block limits.maxWidenings = (r, entered) ∧
    r ≠ .subsumed ∧ r ≠ .exhausted ∧ r ≠ .recursion

/-- What a visit of the block comes to. -/
theorem Prospect.GoesThrough.visit_eq {entered : Path} (h : p.GoesThrough g limits b entered)
    (f : Findings) :
    ∃ f' : Findings,
      visit g limits b p.block p.path f = f'.conclude b ((runBlock g b).runOn entered) := by
  obtain ⟨r, henter, hsub, hex, hrec⟩ := h.entry
  unfold visit
  rw [if_pos h.populated, henter]
  cases r <;> first | contradiction | exact ⟨_, rfl⟩

/-- **No way out of a block is missing** among the ways on. -/
theorem Prospect.GoesThrough.mem_onward {entered : Path} {sides : List Side} {t : Trace}
    (h : p.GoesThrough g limits b entered)
    (hrun : outcome (runBlock g b) ⟨entered, #[]⟩ = (.ok sides, t))
    (hside : (q.block, q.path) ∈ sides) (hl : p.left = q.left + 1) : q ∈ onward g limits p := by
  have hvisit : (visit g limits b p.block p.path { log := {} }).1 = .ok sides := by
    have hrunOn : (runBlock g b).runOn entered = (.ok sides, t) := hrun
    obtain ⟨f', hf'⟩ := h.visit_eq { log := {} }
    rw [hf', (conclude_cases f' b _).1, hrunOn]
  rw [onward, h.block, hl]
  simp only [hvisit]
  exact List.mem_map_of_mem hside

/-! ## The sides of a branch -/

/-- The path enters a block with an undecided branch, and goes on to one of the sides of the
branch, which is possible. -/
def Prospect.ForksTo (g : FlowGraph) (limits : SearchSettings) (p q : Prospect) : Prop :=
  ∃ b r entered t test onTrue onFalse side t',
    g.block? p.block = some b ∧ b.populated = true ∧ p.left = q.left + 1 ∧
    p.path.enter p.block limits.maxWidenings = (r, entered) ∧
    r ≠ .subsumed ∧ r ≠ .exhausted ∧ r ≠ .recursion ∧
    outcome (executeAll g.idOf? b.name b.body) ⟨entered, #[]⟩ = (.ok (), t) ∧
    b.terminator = .branch test onTrue onFalse ∧
    (outcome (decideTest test) t).1 = .ok .may ∧
    (side, q.block) ∈ splitOf test onTrue onFalse ∧
    outcome (constrain side) { t with path := t.path.fork } = (.ok true, t') ∧
    q.path = t'.path.assume b.name side

/-- An undecided test can be asked of every side of its branch. -/
theorem narrowedTo_splitOf {path : Path} {test : Comparison} {onTrue onFalse : BlockId}
    (hj : judged path test = .ok .may) {e : Comparison × BlockId}
    (he : e ∈ splitOf test onTrue onFalse) : ∃ r, narrowedTo path.fork e.1 = .ok r := by
  obtain ⟨hlhs, hrhs⟩ := operands_of_mem_splitOf he
  cases hr : readTest path test with
  | error m => simp [judged, hr] at hj
  | ok values =>
      obtain ⟨v, w⟩ := values
      refine narrowedTo_eq_ok (v := v) (w := w) ?_
        (Value.type_of_canMeet (canMeet_of_judged_may hr hj))
      rw [readTest_fork, readTest, hlhs, hrhs]
      exact hr

/-- **No possible side is missing** among the ways on: no mistake can stop a branch between
two of its sides. -/
theorem mem_onward_of_forksTo (h : p.ForksTo g limits q) : q ∈ onward g limits p := by
  obtain ⟨b, r, entered, t, test, onTrue, onFalse, side, t', hb, hp, hl, henter, hsub, hex, hrec,
    hbody, hterm, hmay, hside, hpossible, hq⟩ := h
  have hj : judged t.path test = .ok .may := by
    obtain ⟨ws, hrun⟩ := outcome_decideTest test t
    rw [hrun] at hmay
    cases hd : judged t.path test with
    | error e => simp [hd, answer] at hmay
    | ok d =>
        rw [hd] at hmay
        cases hmay
        rfl
  have hnarrow : narrowedTo t.path.fork side = .ok (true, t'.path) := by
    obtain ⟨ws, hrun⟩ := outcome_constrain side { t with path := t.path.fork }
    rw [hpossible] at hrun
    cases hn : narrowedTo t.path.fork side with
    | error e => simp [hn] at hrun
    | ok result =>
        simp only [hn, Prod.mk.injEq, Except.ok.injEq] at hrun
        rw [hrun.1, hrun.2]
  -- the branch comes to its sides, and the side is among them
  have hbranch : Yields (takeBranch b.name test onTrue onFalse) t.path fun sides _ =>
      (q.block, q.path) ∈ sides := by
    refine Yields.bind (yields_decideTest hj) ?_
    rintro d path ⟨rfl, rfl⟩
    refine (yields_possibleSides b.name _ fun e he => narrowedTo_splitOf hj he).imp ?_
    rintro sides path ⟨hsides, rfl⟩
    rw [hq]
    exact hsides _ hside _ hnarrow
  obtain ⟨sides, path, ws, hrun, hmem⟩ := hbranch t.warnings
  have hblock : outcome (runBlock g b) ⟨entered, #[]⟩ = (.ok sides, ⟨path, ws⟩) := by
    rw [runBlock, outcome_bind_ok hbody, hterm]
    exact hrun
  exact Prospect.GoesThrough.mem_onward ⟨hb, hp, by omega, r, henter, hsub, hex, hrec⟩ hblock hmem
    hl

/-! ## What a path leads to -/

theorem depth_enter (p : Path) (id : BlockId) (maxWidenings : Nat) :
    (p.enter id maxWidenings).2.depth = p.depth + 1 := by
  unfold Path.enter
  dsimp only
  split
  · rfl
  · split
    · rfl
    · split
      · rfl
      · split <;> rfl

theorem eq_ok_of_conclude {r : Except Error (List Side) × Trace} {sides : List Side} {side : Side}
    (h : (f.conclude b r).1 = .ok sides) (hside : side ∈ sides) : r.1 = .ok sides := by
  rw [(conclude_cases f b r).1] at h
  split at h
  · rename_i heq
    exact heq.trans h
  · cases h
    exact absurd hside List.not_mem_nil
  · cases h

/-- The ways on go on from the path that has entered the block. -/
theorem continues_visit {p : Path} {sides : List Side}
    (h : (visit g limits b id p f).1 = .ok sides) :
    ∀ side ∈ sides, (p.enter id limits.maxWidenings).2.Continues side.2 := by
  intro side hside
  unfold visit at h
  split at h
  · dsimp only at h
    rcases hp : p.enter id limits.maxWidenings with ⟨r, p'⟩
    rw [hp] at h
    have hnil : (Except.ok [] : Except Error (List Side)) = .ok sides → p'.Continues side.2 :=
      fun heq => absurd (Except.ok.inj heq ▸ hside) List.not_mem_nil
    cases r with
    | subsumed => exact hnil h
    | exhausted => exact hnil h
    | recursion =>
        exact ensures_skipCall g b p' #[] sides _
          (Prod.ext (eq_ok_of_conclude h hside) rfl) side hside
    | _ =>
        exact (ensures_runBlock g b p' #[] sides _
          (Prod.ext (eq_ok_of_conclude h hside) rfl) side hside).1
  · exact absurd (Except.ok.inj h ▸ hside) List.not_mem_nil

/-- **Where a path leads to**, it goes on from the path that has entered the block, and may enter
one block less. -/
theorem continues_onward (h : q ∈ onward g limits p) :
    (p.path.enter p.block limits.maxWidenings).2.Continues q.path ∧ q.left + 1 = p.left := by
  unfold onward at h
  split at h
  · rename_i b left hb hl
    split at h
    · rename_i sides hvisit
      obtain ⟨side, hside, rfl⟩ := List.mem_map.1 h
      exact ⟨continues_visit hvisit side hside, hl.symm⟩
    · simp at h
  · simp at h

theorem depth_onward (h : q ∈ onward g limits p) :
    q.path.depth = p.path.depth + 1 ∧ q.left + 1 = p.left :=
  ⟨(continues_onward h).1.depth.trans (depth_enter _ _ _), (continues_onward h).2⟩

/-- A path that leads on and comes to a new place has gone through its block. -/
theorem goesThrough_of_onward {entered : Path} (hq : q ∈ onward g limits p)
    (henter : p.path.enter p.block limits.maxWidenings = (.first, entered)) :
    ∃ b, p.GoesThrough g limits b entered := by
  unfold onward at hq
  split at hq
  · rename_i b left hb hl
    cases hpopulated : b.populated with
    | false => simp [visit, hpopulated, prospects] at hq
    | true => exact ⟨b, hb, hpopulated, by omega, .first, henter, by simp, by simp, by simp⟩
  · simp at hq

/-- **The ways on** lead where the terminator of the block says. -/
theorem Prospect.GoesThrough.leadsTo {entered : Path} (h : p.GoesThrough g limits b entered)
    (hq : q ∈ onward g limits p) :
    b.terminator.LeadsTo (b.sites g.idOf? entered.stack.sites) q.block q.path.stack.sites := by
  unfold onward at hq
  rw [h.block] at hq
  split at hq
  · rename_i b' left hb hl
    cases hb
    obtain ⟨f', hf'⟩ := h.visit_eq { log := {} }
    rw [hf'] at hq
    split at hq
    · rename_i sides hvisit
      obtain ⟨side, hside, rfl⟩ := List.mem_map.1 hq
      exact (ensures_runBlock g b entered #[] sides _
        (Prod.ext (eq_ok_of_conclude hvisit hside) rfl) side hside).2
    · simp at hq
  · simp at hq

end Symbolic
end FlowVerifier
