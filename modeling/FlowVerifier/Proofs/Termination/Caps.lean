import FlowVerifier.Proofs.Symbolic.Ways
import FlowVerifier.Proofs.Termination.Replays
import Mathlib

/-!
# The cap of a replay

A replay follows the walks from the header of a loop through its blocks.  A walk passes each
block once, and comes back to the header at most once, to meet an exit test there.  Only so
many walks are started.  This file shows that nothing more is needed for the replay to end,
whatever the graph, the loops and the search, and that the replay owns up to the sides of
branches that the cap cuts off.

* A `Logbook` is a replay that keeps books: the walks it followed and dropped, and for each
  walk that ended the blocks that it visited.  `Logbook.Faithful` says that the books are right.
* `Walk.moveOn` is what a walk does next.  `mem_moveOn_of_forksTo` says that no possible side of
  a branch is missing among the walks that continue it.
* `Logbook.Faithful.step` is one step, which lowers the effort (`Logbook.effort_step_lt`).
* `replayAll_eq_after`: the replay and its logbook come to their end together.
* `analyze_within_cap` puts them together.
-/

namespace FlowVerifier

open Run Symbolic Exec

namespace Termination

variable {g : FlowGraph} {s : Subject} {w next : Walk} {r r' : Replay} {cap : Nat}

/-! ## One walk -/

/-- What a walk does next: the blocks that it visits, the walks that continue it, and what has
been found then.  A walk that comes back to the header visits it again if the exit test is
there; any other block that was passed before is where the walk ends. -/
def Walk.moveOn (g : FlowGraph) (s : Subject) (w : Walk) (r : Replay) :
    Except Error (List BlockId × List Walk × Replay) :=
  if w.block ∈ w.unseen then do
    let (sides, r) ← passBlock g s w.block w.path r
    return ([w.block], continuations (w.unseen.erase w.block) sides, r)
  else if s.loop.contains w.block then do
    let r ← comeBack g s w.block w.path r
    return (if w.block = s.loop.header ∧ s.testsFirst then [w.block] else [], [], r)
  else return ([], [], r)

/-- The walk passes a block with a branch other than the exit test, and goes on to a side of
the branch that is possible as far as its test is decided. -/
def Walk.ForksTo (g : FlowGraph) (s : Subject) (w next : Walk) : Prop :=
  ∃ b p test onTrue onFalse known t side t',
    w.block ∈ w.unseen ∧ g.block? w.block = some b ∧ s.isInner w.block = false ∧
    runBody g b w.path = .ok (some p) ∧ w.block ≠ s.condition.block ∧
    g.callAt? w.block = none ∧ b.terminator = .branch test onTrue onFalse ∧
    outcome (decideTest test) ⟨p, #[]⟩ = (.ok known, t) ∧
    (side, next.block) ∈ sidesOf test onTrue onFalse known ∧
    outcome (constrain side) { t with path := t.path.fork } = (.ok true, t') ∧
    next.path = t'.path.assume b.name side ∧ next.unseen = w.unseen.erase w.block

/-- A branch that is taken goes on to each of its sides that is possible. -/
theorem ensures_mem_possibleSides (node : String) (tests : List (Comparison × BlockId))
    (p : Path) : Ensures (possibleSides node tests) p fun sides _ =>
      ∀ e ∈ tests, ∀ q, narrowedTo p.fork e.1 = .ok (true, q) →
        (e.2, q.assume node e.1) ∈ sides := by
  unfold possibleSides
  induction tests with
  | nil => exact .pure (by simp)
  | cons e rest ih =>
      have hside : Ensures (sideOf node e.1 e.2) p fun side p' => p' = p ∧
          ∀ q, narrowedTo p.fork e.1 = .ok (true, q) → side = some (e.2, q.assume node e.1) := by
        intro ws side t hrun
        obtain ⟨ws', h⟩ := outcome_sideOf node e.1 e.2 ⟨p, ws⟩
        rw [hrun] at h
        cases hn : narrowedTo p.fork e.1 with
        | error m => simp [hn] at h
        | ok result =>
            simp only [hn, Prod.mk.injEq, Except.ok.injEq] at h
            obtain ⟨rfl, rfl⟩ := h
            refine ⟨rfl, fun q hq => ?_⟩
            cases hq
            rfl
      rw [List.filterMapM_cons]
      refine hside.bind ?_
      rintro side _ ⟨rfl, hfound⟩
      cases side with
      | none =>
          refine ih.imp fun sides _ hsides e' he' q hq => ?_
          rcases List.mem_cons.1 he' with rfl | he'
          · cases hfound q hq
          · exact hsides e' he' q hq
      | some found =>
          refine ih.bind fun sides _ hsides => .pure fun e' he' q hq => ?_
          rcases List.mem_cons.1 he' with rfl | he'
          · cases hfound q hq
            exact List.mem_cons_self ..
          · exact List.mem_cons_of_mem _ (hsides e' he' q hq)

/-- **No possible side is missing** among the walks that continue a walk. -/
theorem mem_moveOn_of_forksTo (h : w.ForksTo g s next) {visited : List BlockId} {ways : List Walk}
    (hmove : w.moveOn g s r = .ok (visited, ways, r')) : next ∈ ways := by
  obtain ⟨b, p, test, onTrue, onFalse, known, t, side, t', hunseen, hb, hinner, hbody, hexit,
    hcall, hbranch, hknown, hside, hpossible, hpath, hleft⟩ := h
  obtain ⟨block, path, unseen⟩ := next
  dsimp only at hside hpath hleft
  subst hpath hleft
  rw [Walk.moveOn, if_pos hunseen, passBlock_of_body hb hinner hbody, if_neg hexit] at hmove
  obtain ⟨⟨sides, r₁⟩, hpass, hmove⟩ := bind_eq_ok_iff.1 hmove
  cases hmove
  obtain ⟨found, hfound, hpass⟩ := bind_eq_ok_iff.1 hpass
  cases hpass
  have hnarrow : narrowedTo t.path.fork side = .ok (true, t'.path) := by
    obtain ⟨ws, hrun⟩ := outcome_constrain side { t with path := t.path.fork }
    rw [hpossible] at hrun
    cases hn : narrowedTo t.path.fork side with
    | error e => simp [hn] at hrun
    | ok result =>
        simp only [hn, Prod.mk.injEq, Except.ok.injEq] at hrun
        rw [hrun.1, hrun.2]
  have hleave : outcome (leaveBlock g w.block b) ⟨p, #[]⟩ =
      outcome (possibleSides b.name (sidesOf test onTrue onFalse known)) t := by
    unfold leaveBlock
    rw [hcall]
    dsimp only
    rw [hbranch]
    exact outcome_bind_ok hknown
  have hsides : (outcome (leaveBlock g w.block b) ⟨p, #[]⟩).1 = .ok sides := hfound
  rw [hleave] at hsides
  exact List.mem_map_of_mem (ensures_mem_possibleSides b.name _ t.path t.warnings sides _
    (Prod.ext hsides rfl) _ hside _ hnarrow)

/-- **How a walk moves on**: it passes a block and goes on, or it ends, and then it may have come
back to the header. -/
theorem Walk.moveOn_cases {visited : List BlockId} {ways : List Walk}
    (h : w.moveOn g s r = .ok (visited, ways, r')) :
    (w.block ∈ w.unseen ∧ visited = [w.block] ∧
        ∀ next ∈ ways, next.unseen = w.unseen.erase w.block) ∨
      (w.block ∉ w.unseen ∧ ways = [] ∧ (visited = [] ∨
        visited = [w.block] ∧ w.block = s.loop.header ∧ s.loop.contains w.block = true)) := by
  unfold Walk.moveOn at h
  split at h
  · rename_i hunseen
    obtain ⟨⟨sides, r₁⟩, -, h⟩ := bind_eq_ok_iff.1 h
    cases h
    exact .inl ⟨hunseen, rfl, fun next => unseen_of_mem_continuations⟩
  · rename_i hseen
    split at h
    · rename_i hin
      obtain ⟨r₁, -, h⟩ := bind_eq_ok_iff.1 h
      cases h
      refine .inr ⟨hseen, rfl, ?_⟩
      split
      · rename_i hback
        exact .inr ⟨rfl, hback.1, hin⟩
      · exact .inl rfl
    · cases h
      exact .inr ⟨hseen, rfl, .inl rfl⟩

/-! ### What is judged -/

/-- Nothing is cut off, and at most one way is judged, namely one that ends. -/
structure Replay.Judges (ends : Bool) (r r' : Replay) : Prop where
  truncated : r'.truncated = r.truncated
  paths : r'.paths.length ≤ r.paths.length + ends.toNat

namespace Replay.Judges

theorem refl (ends : Bool) (r : Replay) : r.Judges ends r := ⟨rfl, Nat.le_add_right ..⟩

theorem of_writes {ends : Bool} (h : Replay.Writes ends r r') : r.Judges ends r' := by
  induction h with
  | nothing r => exact refl ends r
  | note _ _ _ ih => exact ⟨ih.truncated, ih.paths⟩
  | judge hends => exact ⟨rfl, by simp [Replay.judge, hends]⟩

end Replay.Judges

theorem judges_of_moveOn {visited : List BlockId} {ways : List Walk}
    (h : w.moveOn g s r = .ok (visited, ways, r')) : r.Judges ways.isEmpty r' := by
  unfold Walk.moveOn at h
  split at h
  · obtain ⟨⟨sides, r₁⟩, hpass, h⟩ := bind_eq_ok_iff.1 h
    cases h
    rw [continuations, List.isEmpty_map]
    exact .of_writes (writes_of_passBlock hpass)
  · split at h
    · obtain ⟨r₁, hback, h⟩ := bind_eq_ok_iff.1 h
      cases h
      exact .of_writes (writes_of_comeBack hback)
    · cases h
      exact .refl ..

/-! ## Logbooks -/

/-- A walk together with the blocks that it has visited, the latest first. -/
structure Tour where
  /-- The walk. -/
  walk : Walk
  /-- The blocks that it has visited. -/
  visited : List BlockId

/-- The tours that continue a tour on some walks, after it has visited some blocks. -/
def Tour.tours (t : Tour) (visited : List BlockId) (ways : List Walk) : List Tour :=
  ways.map (⟨·, visited ++ t.visited⟩)

/-- A replay that keeps books. -/
structure Logbook where
  /-- The walks in the making. -/
  frontier : Frontier Tour
  /-- The walks that were followed. -/
  followed : List Walk
  /-- The walks that were not started because of the cap. -/
  dropped : List Walk
  /-- The blocks that each walk visited that came to its end. -/
  ended : List (List BlockId)
  /-- The record of the replay. -/
  record : Replay

/-- So many steps a replay takes at most. -/
def stepLimit (s : Subject) (cap : Nat) : Nat := max 1 cap * (s.loop.body.toList.length + 1)

namespace Logbook

variable {b b' : Logbook}

/-- The logbook before the replay. -/
def start (s : Subject) (p : Path) : Logbook where
  frontier := ⟨[⟨⟨s.loop.header, p, s.loop.body.toList⟩, []⟩], 1⟩
  followed := []
  dropped := []
  ended := []
  record := {}

/-- The logbook after the next walk has moved on, or has come to its end. -/
def write (b : Logbook) (cap : Nat) (t : Tour) (rest : List Tour) (visited : List BlockId)
    (ways : List Walk) (record : Replay) : Logbook :=
  let others : Frontier Tour := { b.frontier with pending := rest }
  let tours := t.tours visited ways
  { frontier := others.advance cap tours
    followed := t.walk :: b.followed
    dropped := (others.refused cap tours).map Tour.walk ++ b.dropped
    ended := if ways.isEmpty then (visited ++ t.visited) :: b.ended else b.ended
    record := { record with truncated := record.truncated || others.overflows cap tours } }

/-- One step. -/
def step (g : FlowGraph) (s : Subject) (cap : Nat) (b : Logbook) : Except Error Logbook :=
  match b.frontier.pending with
  | [] => .ok b
  | t :: rest => do
    let (visited, ways, record) ← t.walk.moveOn g s b.record
    return b.write cap t rest visited ways record

/-- The logbook after so many steps. -/
def after (g : FlowGraph) (s : Subject) (cap : Nat) : Nat → Logbook → Except Error Logbook
  | 0, b => .ok b
  | n + 1, b => do after g s cap n (← step g s cap b)

/-- The verdict on the loop. -/
def verdict (b : Logbook) : LoopVerdict := .conclude b.record.paths b.record.truncated

/-- So often a walk may visit a block. -/
def visitLimit (s : Subject) (id : BlockId) : Nat := if id = s.loop.header then 2 else 1

/-- The books are right. -/
structure Faithful (g : FlowGraph) (s : Subject) (cap : Nat) (b : Logbook) : Prop where
  /-- A walk in the making has each block of the loop behind it or before it. -/
  split : ∀ t ∈ b.frontier.pending, (t.visited ++ t.walk.unseen).Perm s.loop.body.toList
  /-- A walk that came to its end visited blocks of the loop, and none too often. -/
  visits : ∀ visited ∈ b.ended, ∀ id, visited.count id ≤ visitLimit s id ∧
    (id ∈ visited → s.loop.contains id = true)
  /-- Each walk that was started is in the making or came to its end. -/
  counted : b.ended.length + b.frontier.pending.length = b.frontier.started
  /-- Only so many walks are started. -/
  capped : b.frontier.started ≤ max 1 cap
  /-- A walk is judged at its end. -/
  judged : b.record.paths.length ≤ b.ended.length
  /-- The record says exactly if a walk was dropped. -/
  truncated : b.record.truncated = true ↔ b.dropped ≠ []
  /-- Every possible side of a branch was followed or dropped, or waits. -/
  conserved : ∀ w ∈ b.followed, ∀ next, w.ForksTo g s next →
    next ∈ b.followed ∨ next ∈ b.dropped ∨ ∃ t ∈ b.frontier.pending, t.walk = next

/-! ### Steps -/

variable {t : Tour} {rest : List Tour} {visited : List BlockId} {ways : List Walk}

theorem start_faithful (p : Path) : (start s p).Faithful g s cap where
  split t ht := by
    rw [List.mem_singleton.1 ht]
    exact .refl _
  visits _ h := by cases h
  counted := rfl
  capped := Nat.le_max_left ..
  judged := Nat.le_refl 0
  truncated := by simp [start]
  conserved _ h := by cases h

theorem step_nil (hp : b.frontier.pending = []) : b.step g s cap = .ok b := by
  unfold step
  rw [hp]

theorem step_cons (hp : b.frontier.pending = t :: rest) :
    b.step g s cap = t.walk.moveOn g s b.record >>= fun (visited, ways, record) =>
      pure (b.write cap t rest visited ways record) := by
  unfold step
  rw [hp]

/-- What waits after a step goes on from the walk, or waited before. -/
theorem mem_pending_write {u : Tour}
    (h : u ∈ (b.write cap t rest visited ways r).frontier.pending) :
    u ∈ t.tours visited ways ∨ u ∈ rest :=
  List.mem_append.1 ((Frontier.perm_advance _ cap _).subset (List.mem_append_left _ h))

/-- A walk that continues the next one waits, or is dropped. -/
theorem mem_write (h : next ∈ ways) :
    (∃ u ∈ (b.write cap t rest visited ways r).frontier.pending, u.walk = next) ∨
      next ∈ (b.write cap t rest visited ways r).dropped := by
  have hmem : (⟨next, visited ++ t.visited⟩ : Tour) ∈ t.tours visited ways :=
    List.mem_map_of_mem h
  rcases List.mem_append.1 ((Frontier.perm_advance ⟨rest, b.frontier.started⟩ cap _).symm.subset
    (List.mem_append_left rest hmem)) with h | h
  · exact .inl ⟨_, h, rfl⟩
  · exact .inr (List.mem_append_left _ (List.mem_map.2 ⟨_, h, rfl⟩))

/-- **The walk that moves on** still has each block of the loop behind it or before it. -/
theorem Faithful.split_write (h : b.Faithful g s cap) (hp : b.frontier.pending = t :: rest)
    (hmove : t.walk.moveOn g s b.record = .ok (visited, ways, r)) :
    ∀ u ∈ (b.write cap t rest visited ways r).frontier.pending,
      (u.visited ++ u.walk.unseen).Perm s.loop.body.toList := by
  intro u hu
  rcases mem_pending_write hu with hu | hu
  · obtain ⟨way, hway, rfl⟩ := List.mem_map.1 hu
    rcases Walk.moveOn_cases hmove with ⟨hunseen, rfl, hleft⟩ | ⟨-, rfl, -⟩
    · dsimp only
      rw [hleft way hway]
      refine .trans ?_ (h.split t (hp ▸ List.mem_cons_self ..))
      exact .trans List.perm_middle.symm ((List.perm_cons_erase hunseen).symm.append_left _)
    · cases hway
  · exact h.split u (hp ▸ List.mem_cons_of_mem _ hu)

/-- A walk in the making has visited no block twice, and none that is before it. -/
theorem Faithful.count_le_one (h : b.Faithful g s cap) (ht : t ∈ b.frontier.pending)
    (id : BlockId) : t.visited.count id + t.walk.unseen.count id ≤ 1 := by
  have hnodup : s.loop.body.toList.Nodup := (BitSet.pairwise_toList _).imp Nat.ne_of_lt
  rw [← List.count_append, (h.split t ht).count_eq id]
  exact List.nodup_iff_count_le_one.1 hnodup id

theorem one_le_visitLimit (s : Subject) (id : BlockId) : 1 ≤ visitLimit s id := by
  unfold visitLimit
  split <;> omega

/-- **The walk that ends** has visited no block too often: only the header is visited by a walk
that has passed it before. -/
theorem Faithful.visits_append (h : b.Faithful g s cap) (hp : b.frontier.pending = t :: rest)
    (hmove : t.walk.moveOn g s b.record = .ok (visited, ways, r)) (id : BlockId) :
    (visited ++ t.visited).count id ≤ visitLimit s id ∧
      (id ∈ visited ++ t.visited → s.loop.contains id = true) := by
  have ht : t ∈ b.frontier.pending := hp ▸ List.mem_cons_self ..
  have hone := h.count_le_one ht id
  have hlimit := one_le_visitLimit s id
  have hin : id ∈ t.visited ++ t.walk.unseen → s.loop.contains id = true :=
    fun hid => BitSet.mem_toList.1 ((h.split t ht).subset hid)
  rw [List.mem_append] at hin ⊢
  rw [List.count_append]
  rcases Walk.moveOn_cases hmove with ⟨hunseen, rfl, -⟩ | ⟨-, -, rfl | ⟨rfl, hheader, hcontains⟩⟩
  · have hcount : [t.walk.block].count id ≤ t.walk.unseen.count id := by
      by_cases hid : t.walk.block = id
      · subst hid
        rw [List.count_singleton_self]
        exact List.count_pos_iff.2 hunseen
      · rw [List.count_eq_zero_of_not_mem (by simpa using Ne.symm hid)]
        exact Nat.zero_le _
    refine ⟨by omega, fun hid => hin ?_⟩
    rcases hid with hid | hid
    · exact .inr (List.mem_singleton.1 hid ▸ hunseen)
    · exact .inl hid
  · refine ⟨by rw [List.count_nil]; omega, fun hid => hin (.inl ?_)⟩
    simpa using hid
  · refine ⟨?_, fun hid => ?_⟩
    · by_cases hid : id = s.loop.header
      · have hle : [t.walk.block].count id ≤ 1 := List.count_le_length
        rw [visitLimit, if_pos hid]
        omega
      · rw [List.count_eq_zero_of_not_mem (by simpa [hheader] using hid)]
        omega
    · rcases hid with hid | hid
      · exact List.mem_singleton.1 hid ▸ hcontains
      · exact hin (.inl hid)

/-- The walk that is followed ends, or goes on as one of the walks that continue it. -/
theorem Faithful.counted_write (h : b.Faithful g s cap) (hp : b.frontier.pending = t :: rest)
    (r : Replay) :
    (b.write cap t rest visited ways r).ended.length +
        (b.write cap t rest visited ways r).frontier.pending.length =
      (b.write cap t rest visited ways r).frontier.started := by
  have hlength := Frontier.length_advance ⟨rest, b.frontier.started⟩ cap (t.tours visited ways)
  have hcounted := h.counted
  rw [hp, List.length_cons] at hcounted
  dsimp only [write] at hlength ⊢
  cases ways with
  | nil =>
      simp only [Tour.tours, List.map_nil, List.getLast?_nil, Option.toList_none,
        List.length_nil, List.isEmpty_nil, if_true, List.length_cons] at hlength ⊢
      omega
  | cons way ways =>
      simp only [Tour.tours, List.map_cons, List.getLast?_cons, Option.toList_some,
        List.length_cons, List.length_nil, List.isEmpty_cons, Bool.false_eq_true,
        if_false] at hlength ⊢
      omega

/-- A way is judged only where the walk ends. -/
theorem Faithful.judged_write (h : b.Faithful g s cap)
    (hmove : t.walk.moveOn g s b.record = .ok (visited, ways, r)) :
    (b.write cap t rest visited ways r).record.paths.length ≤
      (b.write cap t rest visited ways r).ended.length := by
  have hjudged := h.judged
  have hpaths := (judges_of_moveOn hmove).paths
  dsimp only [write]
  cases hways : ways.isEmpty with
  | true =>
      simp only [hways, Bool.toNat_true, if_true, List.length_cons] at hpaths ⊢
      omega
  | false =>
      simp only [hways, Bool.toNat_false, Bool.false_eq_true, if_false] at hpaths ⊢
      omega

/-- The sides of the branch of the walk wait or were dropped, and no other side got lost. -/
theorem Faithful.conserved_write (h : b.Faithful g s cap) (hp : b.frontier.pending = t :: rest)
    (hmove : t.walk.moveOn g s b.record = .ok (visited, ways, r)) :
    ∀ w ∈ (b.write cap t rest visited ways r).followed, ∀ next, w.ForksTo g s next →
      next ∈ (b.write cap t rest visited ways r).followed ∨
        next ∈ (b.write cap t rest visited ways r).dropped ∨
          ∃ u ∈ (b.write cap t rest visited ways r).frontier.pending, u.walk = next := by
  intro w hw next hfork
  rcases List.mem_cons.1 hw with rfl | hw
  · exact .inr ((mem_write (mem_moveOn_of_forksTo hfork hmove)).symm)
  · rcases h.conserved w hw next hfork with hmem | hmem | ⟨u, hu, rfl⟩
    · exact .inl (List.mem_cons_of_mem _ hmem)
    · exact .inr (.inl (List.mem_append_right _ hmem))
    · rw [hp] at hu
      rcases List.mem_cons.1 hu with rfl | hu
      · exact .inl (List.mem_cons_self ..)
      · exact .inr (.inr ⟨u, List.mem_append_right _ hu, rfl⟩)

/-- **A step keeps the books right.** -/
theorem Faithful.step (h : b.Faithful g s cap) (hstep : b.step g s cap = .ok b') :
    b'.Faithful g s cap := by
  cases hp : b.frontier.pending with
  | nil =>
      rw [step_nil hp] at hstep
      cases hstep
      exact h
  | cons t rest =>
      rw [step_cons hp] at hstep
      obtain ⟨⟨visited, ways, r⟩, hmove, hstep⟩ := bind_eq_ok_iff.1 hstep
      cases hstep
      refine ⟨h.split_write hp hmove, fun passed hpassed => ?_, h.counted_write hp r, ?_,
        h.judged_write hmove, ?_, h.conserved_write hp hmove⟩
      · dsimp only [write] at hpassed
        split at hpassed
        · rcases List.mem_cons.1 hpassed with rfl | hpassed
          · exact h.visits_append hp hmove
          · exact h.visits passed hpassed
        · exact h.visits passed hpassed
      · have hstarted := Frontier.started_advance_le ⟨rest, b.frontier.started⟩ cap
          (t.tours visited ways)
        have hcapped := h.capped
        dsimp only [write] at hstarted ⊢
        omega
      · simp only [write, Bool.or_eq_true, (judges_of_moveOn hmove).truncated, h.truncated,
          ne_eq, List.append_eq_nil_iff, List.map_eq_nil_iff, Frontier.refused_eq_nil_iff,
          not_and_or, Bool.not_eq_false]
        exact or_comm

/-- How much a replay can still do. -/
def effort (s : Subject) (cap : Nat) (b : Logbook) : Nat :=
  b.frontier.effort (·.walk.unseen.length) cap s.loop.body.toList.length

/-- **A step lowers what can still be done**, for a walk that goes on has one block less before
it. -/
theorem Faithful.effort_step_lt (h : b.Faithful g s cap) (hp : b.frontier.pending ≠ [])
    (hstep : b.step g s cap = .ok b') : b'.effort s cap < b.effort s cap := by
  cases hpending : b.frontier.pending with
  | nil => exact absurd hpending hp
  | cons t rest =>
      rw [step_cons hpending] at hstep
      obtain ⟨⟨visited, ways, r⟩, hmove, hstep⟩ := bind_eq_ok_iff.1 hstep
      cases hstep
      have hsides : ∀ u ∈ t.tours visited ways, u.walk.unseen.length < t.walk.unseen.length := by
        intro u hu
        obtain ⟨way, hway, rfl⟩ := List.mem_map.1 hu
        rcases Walk.moveOn_cases hmove with ⟨hunseen, -, hleft⟩ | ⟨-, rfl, -⟩
        · dsimp only
          rw [hleft way hway, List.length_erase_of_mem hunseen]
          exact Nat.sub_lt (List.length_pos_of_mem hunseen) Nat.one_pos
        · cases hway
      have hbound : t.walk.unseen.length ≤ s.loop.body.toList.length := by
        have hlength := (h.split t (hpending ▸ List.mem_cons_self ..)).length_eq
        rw [List.length_append] at hlength
        omega
      unfold effort
      conv_rhs => rw [Frontier.effort, hpending]
      exact Frontier.effort_advance_lt ⟨rest, b.frontier.started⟩ cap hsides hbound

theorem after_nil (hp : b.frontier.pending = []) (n : Nat) : after g s cap n b = .ok b := by
  induction n with
  | zero => rfl
  | succ n ih =>
      rw [after, step_nil hp]
      exact ih

/-- **The end.**  After as many steps as the effort allows nothing waits any more. -/
theorem Faithful.after {n : Nat} (h : b.Faithful g s cap) (hafter : after g s cap n b = .ok b') :
    b'.Faithful g s cap ∧ (b.effort s cap ≤ n → b'.frontier.pending = []) := by
  induction n generalizing b with
  | zero =>
      cases hafter
      refine ⟨h, fun hn => ?_⟩
      cases hp : b'.frontier.pending with
      | nil => rfl
      | cons t rest =>
          simp only [effort, Frontier.effort, hp, Frontier.work] at hn
          omega
  | succ n ih =>
      by_cases hp : b.frontier.pending = []
      · rw [after_nil hp] at hafter
        cases hafter
        exact ⟨h, fun _ => hp⟩
      · obtain ⟨b₁, hstep, hafter⟩ := bind_eq_ok_iff.1 hafter
        obtain ⟨hfaithful, hpending⟩ := ih (h.step hstep) hafter
        have hlt := h.effort_step_lt hp hstep
        exact ⟨hfaithful, fun hn => hpending (by omega)⟩

theorem effort_start_le (s : Subject) (cap : Nat) (p : Path) :
    (start s p).effort s cap ≤ stepLimit s cap := by
  unfold stepLimit effort start Frontier.effort Frontier.room
  dsimp only [Frontier.work]
  rw [show max 1 cap = (cap - 1) + 1 by omega, Nat.succ_mul]

end Logbook

/-! ## The replay and its logbook -/

theorem replayAll_nil {frontier : Frontier Walk} (hp : frontier.pending = []) (r : Replay) :
    replayAll g s cap frontier r = .ok r := by
  rw [replayAll]
  split
  · rfl
  · rename_i hcons
    rw [hp] at hcons
    cases hcons

/-- One step of a replay, by what the next walk does. -/
theorem replayAll_moveOn {frontier : Frontier Walk} {rest : List Walk}
    (hp : frontier.pending = w :: rest) (r : Replay) :
    replayAll g s cap frontier r = w.moveOn g s r >>= fun (_, ways, r') =>
      replayAll g s cap (Frontier.advance ⟨rest, frontier.started⟩ cap ways)
        { r' with
          truncated := r'.truncated || Frontier.overflows ⟨rest, frontier.started⟩ cap ways } := by
  have hnone : Frontier.overflows ⟨rest, frontier.started⟩ cap ([] : List Walk) = false := by
    simp [Frontier.overflows]
  have hstay : Frontier.advance ⟨rest, frontier.started⟩ cap ([] : List Walk) =
      ⟨rest, frontier.started⟩ := by simp [Frontier.advance]
  rw [replayAll_cons hp, Walk.moveOn]
  dsimp only
  split
  · cases passBlock g s w.block w.path r with
    | error e => rfl
    | ok result => rfl
  · split
    · cases comeBack g s w.block w.path r with
      | error e => rfl
      | ok r' =>
          show _ = replayAll g s cap (Frontier.advance _ cap [])
            { r' with truncated := r'.truncated || Frontier.overflows _ cap [] }
          rw [hnone, hstay, Bool.or_false]
    · show _ = replayAll g s cap (Frontier.advance _ cap [])
        { r with truncated := r.truncated || Frontier.overflows _ cap [] }
      rw [hnone, hstay, Bool.or_false]

theorem map_walk_tours (t : Tour) (visited : List BlockId) (ways : List Walk) :
    (t.tours visited ways).map Tour.walk = ways := by
  simp [Tour.tours, Function.comp_def]

/-- **The replay and its logbook** come to their end together, within the steps that the effort
allows. -/
theorem replayAll_eq_after {b : Logbook} {n : Nat} (h : b.Faithful g s cap)
    (hn : b.effort s cap ≤ n) :
    replayAll g s cap (b.frontier.map Tour.walk) b.record =
      (Logbook.after g s cap n b).map Logbook.record := by
  induction n generalizing b with
  | zero =>
      cases hp : b.frontier.pending with
      | nil =>
          have hnil : (b.frontier.map Tour.walk).pending = [] := by simp [Frontier.map, hp]
          rw [replayAll_nil hnil]
          rfl
      | cons t rest =>
          simp only [Logbook.effort, Frontier.effort, hp, Frontier.work] at hn
          omega
  | succ n ih =>
      cases hp : b.frontier.pending with
      | nil =>
          have hnil : (b.frontier.map Tour.walk).pending = [] := by simp [Frontier.map, hp]
          rw [replayAll_nil hnil, Logbook.after_nil hp]
          rfl
      | cons t rest =>
          have hcons : (b.frontier.map Tour.walk).pending = t.walk :: rest.map Tour.walk := by
            simp [Frontier.map, hp]
          rw [replayAll_moveOn hcons, Logbook.after, Logbook.step_cons hp]
          cases hmove : t.walk.moveOn g s b.record with
          | error e => rfl
          | ok result =>
              obtain ⟨visited, ways, r⟩ := result
              have hstep : b.step g s cap = .ok (b.write cap t rest visited ways r) := by
                rw [Logbook.step_cons hp, hmove]
                rfl
              have hlt := h.effort_step_lt (by rw [hp]; simp) hstep
              have htours := map_walk_tours t visited ways
              have hfrontier : Frontier.advance ⟨rest.map Tour.walk, b.frontier.started⟩ cap ways =
                  (b.write cap t rest visited ways r).frontier.map Tour.walk := by
                conv_lhs => rw [← htours]
                exact Frontier.advance_map Tour.walk ⟨rest, b.frontier.started⟩ cap _
              have hroom : Frontier.overflows ⟨rest.map Tour.walk, b.frontier.started⟩ cap ways =
                  Frontier.overflows ⟨rest, b.frontier.started⟩ cap (t.tours visited ways) := by
                conv_lhs => rw [← htours]
                exact Frontier.overflows_map Tour.walk ⟨rest, b.frontier.started⟩ cap _
              show replayAll g s cap (Frontier.advance ⟨rest.map Tour.walk, _⟩ cap ways) _ =
                (Logbook.after g s cap n (b.write cap t rest visited ways r)).map Logbook.record
              rw [← ih (h.step hstep) (by omega), ← hfrontier]
              dsimp only [Logbook.write]
              rw [← hroom]
              rfl

/-! ## The analysis of a loop -/

/-- The loop of an index and the state in which its replay starts, if it is replayed. -/
def replayed? (g : FlowGraph) (forest : LoopForest) (summary : SearchSummary) (k : Nat) :
    Option (Subject × Path) := do
  let loop ← forest.get? k
  let condition ← loop.condition
  let start ← startState? g summary loop
  if g.contains condition.block then some (⟨k, loop, condition⟩, start) else none

/-- Without a replay nothing is judged. -/
theorem analyze_of_not_replayed {forest : LoopForest} {summary : SearchSummary} {k : Nat}
    {a : LoopAnalysis} (h : replayed? g forest summary k = none)
    (ha : analyze g forest summary cap k = .ok a) : a.replay = {} := by
  unfold analyze LoopForest.get at ha
  unfold replayed? at h
  cases hl : forest.get? k with
  | none =>
      rw [hl] at ha
      cases ha
  | some loop =>
      rw [hl] at h ha
      obtain ⟨_, hloop, ha⟩ := bind_eq_ok_iff.1 ha
      cases hloop
      cases hc : loop.condition with
      | none =>
          rw [hc] at ha
          cases ha
          rfl
      | some condition =>
          rw [hc] at ha
          cases hs : startState? g summary loop with
          | none =>
              rw [hs] at ha
              cases ha
              rfl
          | some start =>
              rw [hs] at ha
              simp only [Option.bind_eq_bind, Option.bind_some, hc, hs] at h
              split at h
              · cases h
              · rename_i hcontains
                dsimp only at ha
                rw [if_neg hcontains] at ha
                cases ha
                rfl

theorem analyze_of_replayed {forest : LoopForest} {summary : SearchSummary} {k : Nat} {p : Path}
    (h : replayed? g forest summary k = some (s, p)) :
    analyze g forest summary cap k =
      (replay g s cap p).map fun r => ⟨.conclude r.paths r.truncated, r⟩ := by
  obtain ⟨loop, hl, h⟩ := Option.bind_eq_some_iff.1 h
  obtain ⟨condition, hc, h⟩ := Option.bind_eq_some_iff.1 h
  obtain ⟨start, hs, h⟩ := Option.bind_eq_some_iff.1 h
  split at h
  · rename_i hcontains
    cases h
    have hget : forest.get k = pure loop := by
      rw [LoopForest.get, hl]
      rfl
    rw [analyze, hget, pure_bind, hc]
    dsimp only
    rw [hs]
    dsimp only
    rw [if_pos hcontains]
    cases replay g ⟨k, loop, condition⟩ cap p <;> rfl
  · cases h

/-- **The replay of a loop ends within its cap, and owns up to every cut.**  It takes a bounded
number of steps, whatever the graph, the loops and the search.  After any number of them, each
walk has visited only blocks of the loop, the header twice at most and any other once at most.
Only so many walks were started, each of them is in the making or came to its end, and no more
ways were judged.  The record counts as truncated exactly if a side of a branch was dropped.
If a walk was followed, but not on a possible side of its branch, then the record is truncated
in the end, and the verdict is not that the loop terminates. -/
theorem analyze_within_cap (g : FlowGraph) (forest : LoopForest) (summary : SearchSummary)
    (cap k : Nat) :
    (replayed? g forest summary k = none → ∀ a, analyze g forest summary cap k = .ok a →
      a.replay.paths = [] ∧ a.replay.truncated = false) ∧
    ∀ s p, replayed? g forest summary k = some (s, p) →
      analyze g forest summary cap k =
        (Logbook.after g s cap (stepLimit s cap) (.start s p)).map
          (fun b => ⟨b.verdict, b.record⟩) ∧
      ∀ n b, Logbook.after g s cap n (.start s p) = .ok b →
        (stepLimit s cap ≤ n → b.frontier.pending = []) ∧
        (∀ visited ∈ b.frontier.pending.map Tour.visited ++ b.ended, ∀ id,
          visited.count id ≤ (if id = s.loop.header then 2 else 1) ∧
          (id ∈ visited → s.loop.contains id = true)) ∧
        b.ended.length + b.frontier.pending.length = b.frontier.started ∧
        b.frontier.started ≤ max 1 cap ∧ b.record.paths.length ≤ max 1 cap ∧
        (b.record.truncated = true ↔ b.dropped ≠ []) ∧
        (b.dropped ≠ [] → b.verdict ≠ .terminates) ∧
        (stepLimit s cap ≤ n → ∀ w ∈ b.followed, ∀ next, w.ForksTo g s next →
          next ∉ b.followed → next ∈ b.dropped ∧ b.record.truncated = true ∧
            b.verdict ≠ .terminates) := by
  refine ⟨fun hnone a ha => ?_, fun s p hreplayed => ?_⟩
  · rw [analyze_of_not_replayed hnone ha]
    exact ⟨rfl, rfl⟩
  have hstart : (Logbook.start s p).Faithful g s cap := Logbook.start_faithful p
  have heffort := Logbook.effort_start_le s cap p
  refine ⟨?_, fun n b hafter => ?_⟩
  · have hreplay : replay g s cap p = _ := replayAll_eq_after hstart heffort
    rw [analyze_of_replayed hreplayed, hreplay]
    cases Logbook.after g s cap (stepLimit s cap) (.start s p) <;> rfl
  obtain ⟨hfaithful, hends⟩ := hstart.after hafter
  have hpending := fun hn => hends (heffort.trans hn)
  have hcounted := hfaithful.counted
  have hcapped := hfaithful.capped
  have hjudged := hfaithful.judged
  have hincomplete : b.dropped ≠ [] → b.verdict ≠ .terminates := by
    intro hdropped hterminates
    have hcomplete := (convincing_of_conclude hterminates).complete
    rw [hfaithful.truncated.2 hdropped] at hcomplete
    cases hcomplete
  refine ⟨hpending, fun visited hvisited id => ?_, hcounted, hcapped, by omega,
    hfaithful.truncated, hincomplete, fun hn w hw next hfork hnext => ?_⟩
  · rcases List.mem_append.1 hvisited with hvisited | hvisited
    · obtain ⟨t, ht, rfl⟩ := List.mem_map.1 hvisited
      have hle := hfaithful.count_le_one ht id
      have hlimit := Logbook.one_le_visitLimit s id
      unfold Logbook.visitLimit at hlimit
      refine ⟨by omega, fun hid => ?_⟩
      exact BitSet.mem_toList.1 ((hfaithful.split t ht).subset (List.mem_append_left _ hid))
    · exact hfaithful.visits visited hvisited id
  · have hdropped : next ∈ b.dropped := by
      rcases hfaithful.conserved w hw next hfork with hmem | hmem | ⟨t, ht, -⟩
      · exact absurd hmem hnext
      · exact hmem
      · rw [hpending hn] at ht
        cases ht
    have hne := List.ne_nil_of_mem hdropped
    exact ⟨hdropped, hfaithful.truncated.2 hne, hincomplete hne⟩

/-! ### A loop with two ways through its body -/

/-- A loop that counts down, and may print the number before. -/
def printout : FlowGraph where
  slots := #[
    some { name := "e", terminator := .jump 1 },
    some {
      name := "head"
      terminator := .branch ⟨.var "i", .ge, .literal (.number .zero)⟩ 2 5
      predecessors := [0, 4] },
    some {
      name := "body"
      terminator := .branch ⟨.var "i", .ge, .literal (.number .one)⟩ 3 4
      predecessors := [1] },
    some {
      name := "large"
      body := [.print (.var "i")]
      terminator := .jump 4
      predecessors := [2] },
    some {
      name := "back"
      body := [.evaluate "i" .sub (.var "i") (.literal (.number .one))]
      terminator := .jump 1
      predecessors := [2, 3] },
    some { name := "done", predecessors := [1] }]
  first := some 0
  last := some 5

/-- The loop. -/
def printoutLoop : Loop where
  header := 1
  tails := [4]
  body := .ofList 6 [1, 2, 3, 4]
  members := [⟨1, "head", 0⟩, ⟨2, "body", 0⟩, ⟨3, "large", 0⟩, ⟨4, "back", 0⟩]
  condition := some ⟨1, ⟨.var "i", .ge, .literal (.number .zero)⟩, true⟩
  function := none
  parent := none
  depth := 0

/-- What is known where the loop is entered: `i` is between zero and one. -/
def printoutPath : Path where
  vars := ⟨⟨[("i", ⟨.double, .number ⟨.zero, .one⟩, true, .unpredictable, 1, []⟩)]⟩, []⟩

/-- A search that found nothing else. -/
def printoutSummary : SearchSummary where
  results := ⟨[(1, ⟨1, printoutPath⟩)]⟩

/-- What is replayed. -/
def printoutSubject : Subject :=
  ⟨0, printoutLoop, ⟨1, ⟨.var "i", .ge, .literal (.number .zero)⟩, true⟩⟩

/-- With room for one walk, the way on which nothing is printed is cut off. -/
theorem analyze_within_cap_printout :
    ∃ a, analyze printout ⟨#[printoutLoop]⟩ printoutSummary 1 0 = .ok a ∧
      a.replay.paths.length ≤ 1 ∧ a.replay.truncated = true ∧ a.verdict ≠ .terminates := by
  obtain ⟨-, h⟩ := analyze_within_cap printout ⟨#[printoutLoop]⟩ printoutSummary 1 0
  obtain ⟨hanalyze, hbooks⟩ := h printoutSubject printoutPath.restart rfl
  have hcut : (Logbook.after printout printoutSubject 1 (stepLimit printoutSubject 1)
      (.start printoutSubject printoutPath.restart)).map (·.dropped.map Walk.block) =
      .ok [4] := by cbv
  obtain ⟨b, hb, hblocks⟩ := map_eq_ok_iff.1 hcut
  obtain ⟨-, -, -, -, hpaths, htruncated, hverdict, -⟩ := hbooks _ b hb
  have hdropped : b.dropped ≠ [] := by
    rintro hnil
    rw [hnil] at hblocks
    cases hblocks
  rw [hb] at hanalyze
  exact ⟨_, hanalyze, hpaths, htruncated.2 hdropped, hverdict hdropped⟩

end Termination
end FlowVerifier
