import FlowVerifier.Proofs.Symbolic.DeadCode
import FlowVerifier.Proofs.Symbolic.Ways
import Mathlib

/-!
# The caps of a search

A search may start so many paths, each path may enter so many blocks, and a path may be
widened so often at one block.  This file shows that the search ends within these caps, and
that it owns up to all that they cut off.

* A `Survey` is a search that keeps what it followed, what it gave up and the paths that came
  to an end.  `Survey.Faithful` says that these books are right.
* `Connected.depth`: a path counts its blocks, and so it enters no more than it may.
* `explore_survey`: the search and its survey come to their end together, and so
  `agree_of_searchFrom`: a summary notes what the survey has.
* `searchFrom_owns_up` puts them together.
-/

namespace FlowVerifier
namespace Symbolic

variable {g : FlowGraph} {limits : SearchSettings} {p q : Prospect} {f f' : Findings}

/-! ## Surveys -/

/-- A path in the making: the way it takes next, and the ways it took before, the latest
first. -/
structure Track where
  /-- The way it takes next. -/
  next : Prospect
  /-- The ways it took before. -/
  before : List Prospect

namespace Track

/-- All ways of the path. -/
def trail (t : Track) : List Prospect := t.next :: t.before

/-- The path as it goes on. -/
def ways (g : FlowGraph) (limits : SearchSettings) (t : Track) : List Track :=
  (onward g limits t.next).map (⟨·, t.trail⟩)

end Track

/-- A search that keeps books. -/
structure Survey where
  /-- The paths in the making. -/
  frontier : Frontier Track
  /-- The ways that were followed. -/
  followed : List Prospect
  /-- The ways that were given up. -/
  dropped : List Prospect
  /-- The paths that came to an end, each with all of its ways. -/
  paths : List (List Prospect)

/-- The first ways of a search. -/
def origins (g : FlowGraph) (limits : SearchSettings) : List Prospect :=
  g.first.toList.map fun first => ⟨first, .start, limits.maxDepth⟩

/-- The ways of a path, the latest first, lead from the beginning of the search from each to
the next. -/
def Connected (g : FlowGraph) (limits : SearchSettings) (path : List Prospect) : Prop :=
  path.IsChain (fun q p => q ∈ onward g limits p) ∧
    ∃ origin ∈ origins g limits, path.getLast? = some origin

/-- So many steps a search takes at most. -/
def stepLimit (limits : SearchSettings) : Nat := max 1 limits.maxPaths * (limits.maxDepth + 1)

namespace Survey

variable {s : Survey}

/-- The survey before the search. -/
def start (g : FlowGraph) (limits : SearchSettings) : Survey where
  frontier := ⟨(origins g limits).map (⟨·, []⟩), (origins g limits).length⟩
  followed := []
  dropped := []
  paths := []

/-- One step: the next path follows its way to where it leads, or comes to its end. -/
def step (g : FlowGraph) (limits : SearchSettings) (s : Survey) : Survey :=
  match s.frontier.pending with
  | [] => s
  | t :: rest =>
    let others : Frontier Track := { s.frontier with pending := rest }
    let ways := t.ways g limits
    { frontier := others.follow limits.maxPaths ways
      followed := t.next :: s.followed
      dropped := (others.dropped limits.maxPaths ways).map Track.next ++ s.dropped
      paths := if ways.isEmpty then t.trail :: s.paths else s.paths }

/-- The survey of the whole search. -/
def whole (g : FlowGraph) (limits : SearchSettings) : Survey :=
  (step g limits)^[stepLimit limits] (start g limits)

/-- A cap has cut something off. -/
def Cut (g : FlowGraph) (limits : SearchSettings) (s : Survey) : Prop :=
  s.dropped ≠ [] ∨ ∃ p ∈ s.followed, p.Stopped g limits

/-- The books are right. -/
structure Faithful (g : FlowGraph) (limits : SearchSettings) (s : Survey) : Prop where
  /-- Every way that a followed one leads to was followed once, was given up or waits. -/
  conserved : (s.followed ++ s.dropped ++ s.frontier.pending.map Track.next).Perm
    (origins g limits ++ s.followed.flatMap (onward g limits))
  /-- A way that was followed is on a path. -/
  covered : ∀ p ∈ s.followed, (∃ path ∈ s.paths, p ∈ path) ∨
    ∃ t ∈ s.frontier.pending.head?, p ∈ t.before
  /-- The ways of the paths were followed. -/
  traced : (∀ path ∈ s.paths, path ⊆ s.followed) ∧
    ∀ t ∈ s.frontier.pending, t.before ⊆ s.followed
  /-- Each path leads from the beginning from way to way. -/
  connected : (∀ path ∈ s.paths, Connected g limits path) ∧
    ∀ t ∈ s.frontier.pending, Connected g limits t.trail
  /-- The paths count among those that were started. -/
  counted : s.paths.length + s.frontier.pending.length ≤ s.frontier.started
  /-- Only so many paths are started. -/
  capped : s.frontier.started ≤ max 1 limits.maxPaths

end Survey

/-! ### Paths -/

/-- **The depth of a path** is the number of ways it took before, and what is left of the cap
counts down. -/
theorem Connected.depth {path : List Prospect} (h : Connected g limits (p :: path)) :
    p.path.depth = path.length ∧ p.path.depth + p.left = limits.maxDepth := by
  induction path generalizing p with
  | nil =>
      obtain ⟨-, origin, horigin, hlast⟩ := h
      obtain rfl : p = origin := by simpa using hlast
      obtain ⟨first, -, rfl⟩ := List.mem_map.1 horigin
      exact ⟨rfl, Nat.zero_add _⟩
  | cons q path ih =>
      obtain ⟨hchain, horigin⟩ := h
      obtain ⟨hdepth, hsum⟩ := ih ⟨hchain.tail, by simpa using horigin⟩
      obtain ⟨hp, hleft⟩ := depth_onward (List.isChain_cons_cons.1 hchain).1
      rw [List.length_cons]
      omega

/-- **A path enters no more blocks than it may.** -/
theorem Connected.countP_enters_le {path : List Prospect} (h : Connected g limits path) :
    path.countP (·.enters g) ≤ limits.maxDepth := by
  cases path with
  | nil => exact Nat.zero_le _
  | cons p path =>
      obtain ⟨hdepth, hsum⟩ := h.depth
      have hle : path.countP (·.enters g) ≤ path.length := List.countP_le_length
      rw [List.countP_cons]
      split
      · rename_i henters
        have hleft : 0 < p.left := by
          simp only [Prospect.enters, Bool.and_eq_true, decide_eq_true_eq] at henters
          exact henters.2
        omega
      · omega

/-! ### Steps -/

namespace Survey

variable {s : Survey}

theorem start_faithful (g : FlowGraph) (limits : SearchSettings) :
    (start g limits).Faithful g limits := by
  have hlength : (origins g limits).length ≤ 1 := by
    unfold origins
    cases g.first <;> simp
  refine ⟨?_, by simp [start], by simp [start], ⟨by simp [start], ?_⟩, by simp [start], ?_⟩
  · simp [start, Function.comp_def]
  · intro t ht
    obtain ⟨p, hp, rfl⟩ := List.mem_map.1 ht
    exact ⟨by simp [Track.trail], p, hp, rfl⟩
  · simp only [start]
    omega

theorem step_nil (hp : s.frontier.pending = []) : s.step g limits = s := by
  unfold step
  rw [hp]

theorem step_cons {t : Track} {rest : List Track} (hp : s.frontier.pending = t :: rest) :
    s.step g limits =
      { frontier := Frontier.follow ⟨rest, s.frontier.started⟩ limits.maxPaths (t.ways g limits)
        followed := t.next :: s.followed
        dropped := (Frontier.dropped ⟨rest, s.frontier.started⟩ limits.maxPaths
          (t.ways g limits)).map Track.next ++ s.dropped
        paths := if (t.ways g limits).isEmpty then t.trail :: s.paths else s.paths } := by
  unfold step
  rw [hp]

theorem map_next_ways (g : FlowGraph) (limits : SearchSettings) (t : Track) :
    (t.ways g limits).map Track.next = onward g limits t.next := by
  simp [Track.ways, Function.comp_def]

/-- What waits after a step goes on from the path, or waited before. -/
theorem mem_pending_follow {f : Frontier Track} {cap : Nat} {sides : List Track} {t : Track}
    (h : t ∈ (f.follow cap sides).pending) : t ∈ sides ∨ t ∈ f.pending :=
  List.mem_append.1 ((f.perm_follow cap sides).subset (List.mem_append_left _ h))

/-- The path that goes on is the next one. -/
theorem head?_pending_follow {f : Frontier Track} {cap : Nat} {sides : List Track}
    (h : sides ≠ []) : (f.follow cap sides).pending.head? = sides.getLast? := by
  have hadvance : (f.advance cap sides).pending.head? = sides.getLast? := by
    rw [List.getLast?_eq_some_getLast h]
    simp [Frontier.advance, List.getLast?_eq_some_getLast h]
  unfold Frontier.follow
  split
  · rw [Frontier.narrowed, List.head?_take, if_neg (by decide), hadvance]
  · exact hadvance

/-- What a path goes on to has the path behind it. -/
theorem before_of_mem_ways {t u : Track} (hu : u ∈ t.ways g limits) :
    u.before = t.trail ∧ u.next ∈ onward g limits t.next := by
  obtain ⟨q, hq, rfl⟩ := List.mem_map.1 hu
  exact ⟨rfl, hq⟩

section Step

variable {t : Track} {rest : List Track} (hp : s.frontier.pending = t :: rest)

include hp

/-- A path that is complete after a step made the step, or was complete before. -/
theorem mem_paths_step {path : List Prospect} (hpath : path ∈ (s.step g limits).paths) :
    path = t.trail ∨ path ∈ s.paths := by
  rw [step_cons hp] at hpath
  dsimp only at hpath
  split at hpath
  · exact List.mem_cons.1 hpath
  · exact .inr hpath

theorem mem_pending_step {u : Track} (hu : u ∈ (s.step g limits).frontier.pending) :
    u ∈ t.ways g limits ∨ u ∈ s.frontier.pending := by
  rw [step_cons hp] at hu
  exact (mem_pending_follow hu).imp id fun hu => hp ▸ List.mem_cons_of_mem t hu

/-- The path that made the step goes on next, or is complete. -/
theorem mem_trail_step {p : Prospect} (hmem : p ∈ t.trail) :
    (∃ path ∈ (s.step g limits).paths, p ∈ path) ∨
      ∃ u ∈ (s.step g limits).frontier.pending.head?, p ∈ u.before := by
  rw [step_cons hp]
  by_cases hne : t.ways g limits = []
  · left
    rw [hne]
    exact ⟨t.trail, List.mem_cons_self .., hmem⟩
  · right
    dsimp only
    rw [head?_pending_follow hne, List.getLast?_eq_some_getLast hne]
    refine ⟨_, rfl, ?_⟩
    rw [(before_of_mem_ways (List.getLast_mem hne)).1]
    exact hmem

variable (h : s.Faithful g limits)

include h

theorem Faithful.conserved_step :
    ((s.step g limits).followed ++ (s.step g limits).dropped ++
      (s.step g limits).frontier.pending.map Track.next).Perm
      (origins g limits ++ (s.step g limits).followed.flatMap (onward g limits)) := by
  have hperm := (Frontier.perm_follow ⟨rest, s.frontier.started⟩ limits.maxPaths
    (t.ways g limits)).map Track.next
  have hbefore := h.conserved
  rw [hp] at hbefore
  rw [step_cons hp]
  simp only [List.map_append, map_next_ways] at hperm
  classical
  refine List.perm_iff_count.2 fun x => ?_
  have hperm := hperm.count_eq x
  have hbefore := hbefore.count_eq x
  simp only [List.count_append, List.map_cons, List.count_cons, List.flatMap_cons]
    at hperm hbefore ⊢
  omega

theorem Faithful.covered_step (p : Prospect) (hmem : p ∈ (s.step g limits).followed) :
    (∃ path ∈ (s.step g limits).paths, p ∈ path) ∨
      ∃ u ∈ (s.step g limits).frontier.pending.head?, p ∈ u.before := by
  have hfollowed : p ∈ t.next :: s.followed := by
    rw [step_cons hp] at hmem
    exact hmem
  rcases List.mem_cons.1 hfollowed with rfl | hfollowed
  · exact mem_trail_step hp (List.mem_cons_self ..)
  · rcases h.covered p hfollowed with ⟨path, hpath, hin⟩ | ⟨u, hu, hin⟩
    · refine Or.inl ⟨path, ?_, hin⟩
      rw [step_cons hp]
      dsimp only
      split
      · exact List.mem_cons_of_mem _ hpath
      · exact hpath
    · rw [hp] at hu
      obtain rfl : t = u := by simpa using hu
      exact mem_trail_step hp (List.mem_cons_of_mem _ hin)

theorem Faithful.traced_step :
    (∀ path ∈ (s.step g limits).paths, path ⊆ (s.step g limits).followed) ∧
      ∀ u ∈ (s.step g limits).frontier.pending, u.before ⊆ (s.step g limits).followed := by
  have hfollowed : (s.step g limits).followed = t.next :: s.followed := by rw [step_cons hp]
  have htrail : t.trail ⊆ t.next :: s.followed :=
    List.cons_subset_cons _ (h.traced.2 t (hp ▸ List.mem_cons_self ..))
  rw [hfollowed]
  refine ⟨fun path hpath => ?_, fun u hu => ?_⟩
  · rcases mem_paths_step hp hpath with rfl | hpath
    · exact htrail
    · exact List.subset_cons_of_subset _ (h.traced.1 path hpath)
  · rcases mem_pending_step hp hu with hu | hu
    · rw [(before_of_mem_ways hu).1]
      exact htrail
    · exact List.subset_cons_of_subset _ (h.traced.2 u hu)

theorem Faithful.connected_step :
    (∀ path ∈ (s.step g limits).paths, Connected g limits path) ∧
      ∀ u ∈ (s.step g limits).frontier.pending, Connected g limits u.trail := by
  have hconnected := h.connected.2 t (hp ▸ List.mem_cons_self ..)
  refine ⟨fun path hpath => ?_, fun u hu => ?_⟩
  · rcases mem_paths_step hp hpath with rfl | hpath
    · exact hconnected
    · exact h.connected.1 path hpath
  · rcases mem_pending_step hp hu with hu | hu
    · obtain ⟨hbefore, hnext⟩ := before_of_mem_ways hu
      rw [Track.trail, hbefore]
      obtain ⟨hchain, origin, horigin, hlast⟩ := hconnected
      exact ⟨List.isChain_cons_cons.2 ⟨hnext, hchain⟩, origin, horigin, by
        simpa [Track.trail] using hlast⟩
    · exact h.connected.2 u hu

theorem Faithful.counted_step :
    (s.step g limits).paths.length + (s.step g limits).frontier.pending.length ≤
      (s.step g limits).frontier.started := by
  have hlength := Frontier.length_follow_le ⟨rest, s.frontier.started⟩ limits.maxPaths
    (t.ways g limits)
  have hcounted := h.counted
  rw [hp, List.length_cons] at hcounted
  rw [step_cons hp]
  dsimp only at hlength ⊢
  by_cases hne : t.ways g limits = []
  · rw [hne] at hlength ⊢
    simp only [List.getLast?_nil, Option.toList_none, List.length_nil, List.isEmpty_nil,
      if_true, List.length_cons] at hlength ⊢
    omega
  · have hone : (t.ways g limits).getLast?.toList.length = 1 := by
      rw [List.getLast?_eq_some_getLast hne]
      rfl
    rw [if_neg (by simpa using hne)]
    omega

theorem Faithful.capped_step :
    (s.step g limits).frontier.started ≤ max 1 limits.maxPaths := by
  have hstarted := Frontier.started_follow_le ⟨rest, s.frontier.started⟩ limits.maxPaths
    (t.ways g limits)
  have hcapped := h.capped
  rw [step_cons hp]
  dsimp only at hstarted ⊢
  omega

end Step

/-- **A step keeps the books right.** -/
theorem Faithful.step (h : s.Faithful g limits) : (s.step g limits).Faithful g limits := by
  cases hp : s.frontier.pending with
  | nil =>
      rw [step_nil hp]
      exact h
  | cons t rest =>
      exact ⟨h.conserved_step hp, h.covered_step hp, h.traced_step hp, h.connected_step hp,
        h.counted_step hp, h.capped_step hp⟩

/-- **A step lowers what can still be done.** -/
theorem effort_step_lt (h : s.Faithful g limits) (hp : s.frontier.pending ≠ []) :
    (s.step g limits).frontier.effort (·.next.left) limits.maxPaths limits.maxDepth <
      s.frontier.effort (·.next.left) limits.maxPaths limits.maxDepth := by
  cases hpending : s.frontier.pending with
  | nil => exact absurd hpending hp
  | cons t rest =>
      have hleft : t.next.left ≤ limits.maxDepth := by
        have := (h.connected.2 t (hpending ▸ List.mem_cons_self ..)).depth.2
        omega
      have hways : ∀ u ∈ t.ways g limits, u.next.left < t.next.left := by
        intro u hu
        obtain ⟨q, hq, rfl⟩ := List.mem_map.1 hu
        exact Nat.lt_of_succ_le (Nat.le_of_eq (depth_onward hq).2)
      have hlt := Frontier.effort_follow_lt ⟨rest, s.frontier.started⟩ limits.maxPaths hways hleft
      rw [step_cons hpending]
      conv_rhs => rw [Frontier.effort, hpending]
      exact hlt

/-- **The end.**  After as many steps as the effort allows nothing waits any more. -/
theorem Faithful.iterate_step (h : s.Faithful g limits) {n : Nat}
    (hn : s.frontier.effort (·.next.left) limits.maxPaths limits.maxDepth ≤ n) :
    ((Survey.step g limits)^[n] s).Faithful g limits ∧
      ((Survey.step g limits)^[n] s).frontier.pending = [] := by
  induction n generalizing s with
  | zero =>
      refine ⟨h, ?_⟩
      cases hp : s.frontier.pending with
      | nil => exact hp
      | cons t rest =>
          simp only [Frontier.effort, hp, Frontier.work] at hn
          omega
  | succ n ih =>
      by_cases hp : s.frontier.pending = []
      · rw [Function.iterate_fixed (step_nil hp)]
        exact ⟨h, hp⟩
      · have hlt := effort_step_lt h hp
        exact ih h.step (by omega)

theorem effort_start_le (g : FlowGraph) (limits : SearchSettings) :
    (start g limits).frontier.effort (·.next.left) limits.maxPaths limits.maxDepth ≤
      stepLimit limits := by
  unfold stepLimit start origins Frontier.effort Frontier.room
  cases g.first with
  | none =>
      simp only [Option.toList_none, List.map_nil, List.length_nil, Nat.sub_zero, Frontier.work]
      exact Nat.mul_le_mul_right _ (Nat.le_max_right ..)
  | some first =>
      simp only [Option.toList_some, List.map_cons, List.map_nil, List.length_cons,
        List.length_nil, Frontier.work]
      rw [show max 1 limits.maxPaths = (limits.maxPaths - 1) + 1 by omega, Nat.succ_mul]

end Survey

/-! ## The search and its survey -/

/-- A search that stops after so many steps, with a result if it has come to its end. -/
def exploreFor (g : FlowGraph) (limits : SearchSettings) :
    Nat → Frontier Prospect → Findings → Option (Except Error Nat × Findings)
  | steps, frontier, f =>
    match frontier.pending, steps with
    | [], _ => some (.ok frontier.started, f)
    | _ :: _, 0 => none
    | p :: rest, steps + 1 =>
      match proceed g limits p { frontier with pending := rest } f with
      | (.error e, f) => some (.error e, f)
      | (.ok next, f) => exploreFor g limits steps next f

theorem exploreFor_nil {frontier : Frontier Prospect} (hp : frontier.pending = []) (n : Nat) :
    exploreFor g limits n frontier f = some (.ok frontier.started, f) := by
  unfold exploreFor
  rw [hp]

theorem exploreFor_cons {frontier : Frontier Prospect} {rest : List Prospect}
    (hp : frontier.pending = p :: rest) (n : Nat) :
    exploreFor g limits (n + 1) frontier f =
      match proceed g limits p { frontier with pending := rest } f with
      | (.error e, f) => some (.error e, f)
      | (.ok next, f) => exploreFor g limits n next f := by
  rw [exploreFor.eq_def]
  dsimp only
  rw [hp]

/-- What a search has noted, and what its survey has, are the same. -/
structure Agree (g : FlowGraph) (limits : SearchSettings) (s : Survey) (f : Findings) : Prop where
  /-- A cut is noted, and nothing else is. -/
  truncated : f.truncated = true ↔ s.Cut g limits
  /-- Every entry is noted. -/
  visits : ∀ id, f.visits id = s.followed.countP fun p => p.enters g && p.block == id

/-- **A step of the search is a step of its survey.** -/
theorem Agree.step {s : Survey} (h : Agree g limits s f) {t : Track} {rest : List Track}
    (hp : s.frontier.pending = t :: rest) {next : Frontier Prospect}
    (hstep : proceed g limits t.next (Frontier.map Track.next ⟨rest, s.frontier.started⟩) f =
      (.ok next, f')) :
    next = (s.step g limits).frontier.map Track.next ∧ Agree g limits (s.step g limits) f' := by
  obtain ⟨hnext, htruncated, hvisits⟩ := proceed_eq_ok hstep
  rw [← Survey.map_next_ways, Frontier.follow_map] at hnext
  rw [Survey.step_cons hp]
  refine ⟨hnext, ?_, fun id => ?_⟩
  · rw [htruncated, h.truncated, ne_eq, Frontier.dropped_eq_nil_iff,
      ← Survey.map_next_ways, Frontier.overflows_map, ← Frontier.dropped_eq_nil_iff]
    simp only [Survey.Cut, List.mem_cons, exists_eq_or_imp, ne_eq, List.append_eq_nil_iff,
      List.map_eq_nil_iff, not_and_or]
    simp only [or_assoc, or_comm, or_left_comm]
  · rw [hvisits, h.visits, List.countP_cons]
    simp only [Bool.and_eq_true, beq_iff_eq]

/-- **The search and its survey** come to their end together, within the steps that the effort
allows. -/
theorem explore_survey {s : Survey} (hs : s.Faithful g limits) (h : Agree g limits s f) {n : Nat}
    (hn : s.frontier.effort (·.next.left) limits.maxPaths limits.maxDepth ≤ n) :
    exploreFor g limits n (s.frontier.map Track.next) f =
        some (explore g limits (s.frontier.map Track.next) f) ∧
      ∀ paths f', explore g limits (s.frontier.map Track.next) f = (.ok paths, f') →
        paths = ((Survey.step g limits)^[n] s).frontier.started ∧
          Agree g limits ((Survey.step g limits)^[n] s) f' := by
  induction n generalizing s f with
  | zero =>
      cases hp : s.frontier.pending with
      | nil =>
          have hnil : (s.frontier.map Track.next).pending = [] := by simp [Frontier.map, hp]
          rw [explore_nil hnil, exploreFor_nil hnil]
          refine ⟨rfl, fun paths f' heq => ?_⟩
          cases heq
          exact ⟨rfl, h⟩
      | cons t rest =>
          simp only [Frontier.effort, hp, Frontier.work] at hn
          omega
  | succ n ih =>
      cases hp : s.frontier.pending with
      | nil =>
          have hnil : (s.frontier.map Track.next).pending = [] := by simp [Frontier.map, hp]
          rw [explore_nil hnil, exploreFor_nil hnil, Function.iterate_fixed (Survey.step_nil hp)]
          refine ⟨rfl, fun paths f' heq => ?_⟩
          cases heq
          exact ⟨rfl, h⟩
      | cons t rest =>
          have hcons : (s.frontier.map Track.next).pending = t.next :: rest.map Track.next := by
            simp [Frontier.map, hp]
          have hlt := Survey.effort_step_lt hs (by rw [hp]; simp)
          rw [explore_proceed hcons, exploreFor_cons hcons, Function.iterate_succ_apply]
          rcases hstep : proceed g limits t.next
            { s.frontier.map Track.next with pending := rest.map Track.next } f with ⟨r, f₁⟩
          cases r with
          | error e => exact ⟨rfl, fun paths f' heq => absurd heq (by simp)⟩
          | ok next =>
              obtain ⟨rfl, hagree⟩ := h.step hp hstep
              exact ih hs.step hagree (by omega)

theorem searchFrom_eq (g : FlowGraph) (limits : SearchSettings) (log : Log) :
    searchFrom g limits log =
      match explore g limits ((Survey.start g limits).frontier.map Track.next) { log } with
      | (.error e, f) => (.error e, f.log)
      | (.ok paths, f) =>
        (.ok { paths, truncated := f.truncated, results := f.results }, f.log) := by
  unfold searchFrom Survey.start origins
  cases g.first with
  | none => rw [explore_nil rfl]; rfl
  | some first => rfl

/-- At the end of the search nothing waits, and the books are right. -/
theorem Survey.whole_faithful (g : FlowGraph) (limits : SearchSettings) :
    (Survey.whole g limits).Faithful g limits ∧
      (Survey.whole g limits).frontier.pending = [] :=
  (Survey.start_faithful g limits).iterate_step (Survey.effort_start_le g limits)

theorem start_agree (g : FlowGraph) (limits : SearchSettings) (log : Log) :
    Agree g limits (Survey.start g limits) { log } :=
  ⟨by simp [Survey.Cut, Survey.start], fun _ => rfl⟩

/-- **A summary** notes what the survey of the whole search has. -/
theorem agree_of_searchFrom {log log' : Log} {summary : SearchSummary}
    (h : searchFrom g limits log = (.ok summary, log')) :
    ∃ f, Agree g limits (Survey.whole g limits) f ∧
      summary = ⟨(Survey.whole g limits).frontier.started, f.truncated, [], f.results⟩ := by
  rw [searchFrom_eq] at h
  rcases hexplore : explore g limits ((Survey.start g limits).frontier.map Track.next) { log }
    with ⟨r, f⟩
  rw [hexplore] at h
  cases r with
  | error e => cases h
  | ok paths =>
      obtain ⟨hpaths, hagree⟩ := (explore_survey (Survey.start_faithful g limits)
        (start_agree g limits log) (Survey.effort_start_le g limits)).2 paths f hexplore
      cases h
      exact ⟨f, hagree, by rw [hpaths]; rfl⟩

/-- What is not given up is followed: the first ways, and every way that a followed one leads
to. -/
theorem Survey.whole_followed (h : (Survey.whole g limits).dropped = []) :
    (∀ p ∈ origins g limits, p ∈ (Survey.whole g limits).followed) ∧
      ∀ p ∈ (Survey.whole g limits).followed, ∀ q ∈ onward g limits p,
        q ∈ (Survey.whole g limits).followed := by
  obtain ⟨hwhole, hpending⟩ := Survey.whole_faithful g limits
  have hperm := hwhole.conserved
  rw [hpending, h, List.map_nil, List.append_nil, List.append_nil] at hperm
  exact ⟨fun p hp => hperm.symm.subset (List.mem_append_left _ hp), fun p hp q hq =>
    hperm.symm.subset (List.mem_append_right _ (List.mem_flatMap.2 ⟨p, hp, hq⟩))⟩

/-- **The search ends within its caps, and owns up to every cut.**  It takes a bounded number
of steps.  It starts only so many paths, the paths that it follows are among them, and each
enters only so many blocks.  Every way that a followed one leads to is followed as well, unless
it is given up.  A summary notes every entry.  It counts as truncated exactly if a way was given
up or a path stopped by a cap, hence in particular if a possible side of a branch was not
followed, and then dead code elimination removes nothing. -/
theorem searchFrom_owns_up (g : FlowGraph) (limits : SearchSettings) (log : Log) :
    (exploreFor g limits (stepLimit limits) ((Survey.start g limits).frontier.map Track.next)
        { log } =
      some (explore g limits ((Survey.start g limits).frontier.map Track.next) { log })) ∧
    (Survey.whole g limits).frontier.pending = [] ∧ (Survey.whole g limits).Faithful g limits ∧
    (Survey.whole g limits).paths.length ≤ max 1 limits.maxPaths ∧
    (∀ path ∈ (Survey.whole g limits).paths, path.countP (·.enters g) ≤ limits.maxDepth) ∧
    ∀ summary log', searchFrom g limits log = (.ok summary, log') →
      (Survey.whole g limits).paths.length ≤ summary.paths ∧
      summary.paths ≤ max 1 limits.maxPaths ∧
      (∀ id, ((summary.results.get? id).map BlockResult.visits).getD 0 =
        (Survey.whole g limits).followed.countP fun p => p.enters g && p.block == id) ∧
      (summary.truncated = true ↔ (Survey.whole g limits).dropped ≠ [] ∨
        ∃ p ∈ (Survey.whole g limits).followed, p.Stopped g limits) ∧
      ((∃ p ∈ (Survey.whole g limits).followed, ∃ q, p.ForksTo g limits q ∧
        q ∉ (Survey.whole g limits).followed) → summary.truncated = true) ∧
      (summary.truncated = true → ∀ w, outcome (eliminateDeadCode summary) w = (.ok [], w)) := by
  obtain ⟨hwhole, hpending⟩ := Survey.whole_faithful g limits
  have hcounted := hwhole.counted
  have hcapped := hwhole.capped
  rw [hpending, List.length_nil, Nat.add_zero] at hcounted
  refine ⟨(explore_survey (Survey.start_faithful g limits) (start_agree g limits log)
    (Survey.effort_start_le g limits)).1, hpending, hwhole, hcounted.trans hcapped,
    fun path hpath => (hwhole.connected.1 path hpath).countP_enters_le, ?_⟩
  intro summary log' hsearch
  obtain ⟨f, ⟨htruncated, hvisits⟩, rfl⟩ := agree_of_searchFrom hsearch
  refine ⟨hcounted, hcapped, hvisits, htruncated, ?_, ?_⟩
  · rintro ⟨p, hp, q, hfork, hq⟩
    -- were nothing given up, the way would be followed
    refine htruncated.2 (.inl fun hnil => hq ?_)
    exact (Survey.whole_followed hnil).2 p hp q (mem_onward_of_forksTo hfork)
  · intro ht w
    rw [eliminateDeadCode, if_pos ht]
    rfl

/-- One of the two paths that the search starts may not go on after its second block. -/
theorem searchFrom_owns_up_drift :
    ∃ summary log, searchFrom drift { maxPaths := 2, maxDepth := 2 } {} = (.ok summary, log) ∧
      summary.paths ≤ 2 ∧ summary.truncated = true ∧
      ∀ w, outcome (eliminateDeadCode summary) w = (.ok [], w) := by
  obtain ⟨-, -, -, -, -, h⟩ :=
    searchFrom_owns_up drift { maxPaths := 2, maxDepth := 2 } {}
  refine ⟨_, _, by cbv, ?_⟩
  obtain ⟨-, hpaths, -, -, -, hdead⟩ := h _ _ (by cbv)
  exact ⟨hpaths, rfl, hdead rfl⟩

end Symbolic
end FlowVerifier
