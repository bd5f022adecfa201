import Mathlib
import FlowVerifier.Proofs.Loop.Routines
import FlowVerifier.Proofs.Termination.Following

/-!
# What a replay shows

A replay that ends with the verdict that a loop terminates has followed every way through
the loop and has judged all of them good (`Replay.Convincing`).  So every iteration that
is followed by one of its ways brings the operands of the exit test closer to the end.

* `cases_of_move` takes the passage of a block apart into its body and what comes after it.
* `Settles` says of a way in the making that every iteration it follows makes progress.
  One step of the replay settles a way if the ways that continue it are settled
  (`settles_of_passBlock`, `settles_of_comeBack`), and so the replay settles all
  (`settles_of_replayAll`).
-/

namespace FlowVerifier

open Run Symbolic Exec

namespace Termination

/-! ## Verdicts -/

/-- Nothing was left out, and no way is bad or potentially bad. -/
structure Replay.Convincing (r : Replay) : Prop where
  complete : r.truncated = false
  good : ∀ judged ∈ r.paths, judged.1 = .good

/-- The worst judgement is as bad as any. -/
theorem severity_le_worst (judged : List (Verdict × Example)) (first : Verdict × Example) :
    ∀ j ∈ first :: judged, j.1.severity ≤ (judged.foldl LoopVerdict.worse first).1.severity := by
  induction judged generalizing first with
  | nil => simp
  | cons next judged ih =>
      have hworse : first.1.severity ≤ (LoopVerdict.worse first next).1.severity ∧
          next.1.severity ≤ (LoopVerdict.worse first next).1.severity := by
        unfold LoopVerdict.worse
        split <;> omega
      intro j hj
      rw [List.mem_cons, List.mem_cons] at hj
      rw [List.foldl_cons]
      have hworst := ih (LoopVerdict.worse first next) _ (List.mem_cons_self ..)
      rcases hj with rfl | rfl | hj
      · exact hworse.1.trans hworst
      · exact hworse.2.trans hworst
      · exact ih _ j (List.mem_cons_of_mem _ hj)

/-- **The verdict that a loop terminates** needs a convincing replay. -/
theorem convincing_of_conclude {r : Replay}
    (h : LoopVerdict.conclude r.paths r.truncated = .terminates) : r.Convincing := by
  unfold LoopVerdict.conclude at h
  split at h
  · split at h <;> cases h
  · rename_i first rest hpaths
    dsimp only at h
    split at h
    · rename_i hworst
      refine ⟨?_, fun j hj => ?_⟩
      · split at h
        · cases h
        · simpa using ‹¬ r.truncated = true›
      · have hle := severity_le_worst rest first j (hpaths ▸ hj)
        rw [hworst] at hle
        cases hv : j.1 <;> rw [hv] at hle <;> first | rfl | exact absurd hle (by decide)
    · split at h <;> cases h
    · cases h

/-- What a replay has found is kept. -/
structure Replay.Grows (r r' : Replay) : Prop where
  truncated : r.truncated = true → r'.truncated = true
  paths : ∀ judged ∈ r.paths, judged ∈ r'.paths

namespace Replay.Grows

variable {r r' r'' : Replay}

theorem refl (r : Replay) : r.Grows r := ⟨id, fun _ => id⟩

theorem trans (h : r.Grows r') (h' : r'.Grows r'') : r.Grows r'' :=
  ⟨h'.truncated ∘ h.truncated, fun j hj => h'.paths j (h.paths j hj)⟩

theorem convincing (h : r.Grows r') (hr : r'.Convincing) : r.Convincing := by
  refine ⟨?_, fun j hj => hr.good j (h.paths j hj)⟩
  rw [← Bool.not_eq_true]
  exact fun ht => absurd (h.truncated ht) (by simp [hr.complete])

theorem overflow (r : Replay) (t : Bool) : r.Grows { r with truncated := r.truncated || t } :=
  ⟨fun h => by simp [h], fun _ h => h⟩

end Replay.Grows

section Steps

variable {env : Environment} {g : FlowGraph} {a : Subject} {l : Loop} {c : LoopCondition}
  {s₀ s s' e : State} {p q : Path} {n k maxPaths : Nat} {b : Block} {id next : BlockId}
  {r r' fin : Replay} {sides : List Side} {events : List Event}

/-! ## Steps of a replay -/

/-- What a step writes into the record: nothing, a note, or a judgement, which only a way that
ends is given. -/
inductive Replay.Writes (ends : Bool) : Replay → Replay → Prop
  /-- Nothing more is written. -/
  | nothing (r : Replay) : Writes ends r r
  /-- A note is written before the rest. -/
  | note {r r' : Replay} (id : BlockId) (p : Path) (rest : Writes ends (r.note id p) r') :
      Writes ends r r'
  /-- The way is judged. -/
  | judge (hends : ends = true) (r : Replay) (verdict : Verdict) (e : Example) :
      Writes ends r (r.judge verdict e)

theorem Replay.Writes.grows {ends : Bool} (h : Replay.Writes ends r r') : r.Grows r' := by
  induction h with
  | nothing => exact .refl _
  | note _ _ _ ih => exact ⟨ih.truncated, ih.paths⟩
  | judge => exact ⟨id, fun _ hj => List.mem_append_left _ hj⟩

theorem writes_of_judgeAt (h : judgeAt a p r = .ok r') : Replay.Writes true r r' := by
  obtain ⟨verdict, -, h⟩ := bind_eq_ok_iff.1 h
  cases h
  exact .judge rfl ..

/-- **Passing a block** judges a way only if it ends there. -/
theorem writes_of_passBlock (h : passBlock g a id p r = .ok (sides, r')) :
    Replay.Writes sides.isEmpty r r' := by
  unfold passBlock at h
  split at h
  · cases h
    exact .nothing r
  · split at h
    · cases h
      exact .judge rfl ..
    · obtain ⟨after, -, h⟩ := bind_eq_ok_iff.1 h
      split at h
      · cases h
        exact .nothing r
      · split at h
        · split at h
          · obtain ⟨_, -, h⟩ := bind_eq_ok_iff.1 h
            cases h
            exact .note _ _ (.nothing _)
          · obtain ⟨_, hjudge, h⟩ := bind_eq_ok_iff.1 h
            cases h
            exact .note _ _ (writes_of_judgeAt hjudge)
        · obtain ⟨_, -, h⟩ := bind_eq_ok_iff.1 h
          cases h
          exact .note _ _ (.nothing _)

/-- **Coming back** to a block ends a way. -/
theorem writes_of_comeBack (h : comeBack g a id p r = .ok r') : Replay.Writes true r r' := by
  unfold comeBack at h
  split at h
  · split at h
    · cases h
      exact .nothing r
    · obtain ⟨after, -, h⟩ := bind_eq_ok_iff.1 h
      split at h
      · cases h
        exact .nothing r
      · exact .note _ _ (writes_of_judgeAt h)
  · cases h
    exact .judge rfl ..

/-- **What a replay has found** is kept to its end. -/
theorem grows_of_replayAll {frontier : Frontier Walk}
    (h : replayAll g a maxPaths frontier r = .ok fin) : r.Grows fin := by
  fun_induction replayAll g a maxPaths frontier r with
  | case1 =>
      cases h
      exact .refl _
  | case2 => cases h
  | case3 _ _ _ _ _ _ _ _ _ hpass _ ih =>
      exact (writes_of_passBlock hpass).grows.trans ((Replay.Grows.overflow ..).trans (ih h))
  | case4 => cases h
  | case5 _ _ _ _ _ _ _ _ _ hback ih => exact (writes_of_comeBack hback).grows.trans (ih h)
  | case6 _ _ _ _ _ _ _ _ ih => exact ih h

/-- Passing a block whose body makes no mistake. -/
theorem passBlock_of_body (hb : g.block? id = some b) (hinner : a.isInner id = false)
    (hrun : runBody g b p = .ok (some q)) (r : Replay) :
    passBlock g a id p r =
      if id = a.condition.block then
        if id = a.loop.header then do
          return (← ((enterLoop a.condition b).runOn q).1, r.note id q)
        else do return ([], ← judgeAt a q (r.note id q))
      else do return (← ((leaveBlock g id b).runOn q).1, r.note id q) := by
  unfold passBlock
  rw [hb]
  dsimp only
  rw [hinner, hrun]
  rfl

/-- The side that an execution yields is among the sides that it has as its result. -/
theorem mem_of_yields {x : Exec (List Side)} {post : Path → Prop}
    (hx : Yields x p fun sides _ => ∃ q, (next, q) ∈ sides ∧ post q)
    (hrun : (x.runOn p).1 = .ok sides) : ∃ q, (next, q) ∈ sides ∧ post q := by
  obtain ⟨found, q, ws, hfound, hside⟩ := hx #[]
  rw [show x.runOn p = _ from hfound] at hrun
  cases hrun
  exact hside

/-! ## Passing a block -/

/-- **The passage of a block** is that of its body, and then of an edge or a call. -/
theorem cases_of_move (h : Move env g id s events next s') :
    .entered id s ∈ events ∧ ∃ b e, g.block? id = some b ∧ s.execAll env g.idOf? b.body = .ok e ∧
      ((g.callAt? id = none ∧ b.terminator.isReturn = false ∧ leave e b.terminator = .at next s') ∨
        ∃ function made rest result, g.callAt? id = some (function, made) ∧
          b.terminator.isReturn = false ∧ b.test? = none ∧ made.returnTo = next ∧
          .called function result e s' ∈ events ∧
          State.unwind? e.stack = some (made.returnTo, rest) ∧
          s'.stack = (result.map (Entry.value none)).toList ++ rest) := by
  have hbody : ∀ {b : Block} {id : BlockId} {s s' : State} {next : BlockId},
      g.block? id = some b → step env g (.at id s) = .at next s' →
      ∃ e, s.execAll env g.idOf? b.body = .ok e ∧ leave e b.terminator = .at next s' := by
    intro b id s s' next hb hstep
    unfold step at hstep
    dsimp only at hstep
    rw [hb] at hstep
    dsimp only [Run.runBlock] at hstep
    split at hstep
    · split at hstep
      · cases hstep
      · exact ⟨_, by assumption, hstep⟩
    · cases hstep
  cases h with
  | leave hb hcall hreturn hstep =>
      obtain ⟨e, he, hleave⟩ := hbody hb hstep
      exact ⟨List.mem_singleton_self _, _, e, hb, he, .inl ⟨hcall, hreturn, hleave⟩⟩
  | call hb hcall hjump hstep _ hunwind hstack =>
      obtain ⟨e, he, hleave⟩ := hbody hb hstep
      rw [hjump] at hleave
      cases hleave
      refine ⟨by simp, _, _, hb, he, .inr ⟨_, _, _, _, hcall, by rw [hjump]; rfl, ?_, rfl, ?_,
        hunwind, hstack⟩⟩
      · rw [Block.test?, hjump]
      · simp

/-- The number of instructions in a block. -/
def bodyLength (g : FlowGraph) (id : BlockId) : Nat :=
  ((g.block? id).map fun b => b.body.length).getD 0

theorem bodyLength_eq (hb : g.block? id = some b) : bodyLength g id = b.body.length := by
  rw [bodyLength, hb]
  rfl

/-- **A way that passes a block** follows on one of the sides on which it goes on. -/
theorem exists_side_of_move (henv : env.Typed) (h₀ : s₀.Ordered) (h : Follows g l c s₀ n p s)
    (hn : n + bodyLength g id < 2 ^ 64) (hid : l.contains id = true)
    (hmove : Move env g id s events next s') (hreg : ∀ ev ∈ events, ev.Regular env g l c) :
    ∃ b q, g.block? id = some b ∧ runBody g b p = .ok (some q) ∧
      Yields (leaveBlock g id b) q fun sides _ =>
        ∃ q', (next, q') ∈ sides ∧ Follows g l c s₀ (n + bodyLength g id) q' s' := by
  obtain ⟨hentered, b, e, hb, he, hleave⟩ := cases_of_move hmove
  obtain ⟨hsmooth, hnan⟩ := hreg _ hentered b hb
  rw [bodyLength_eq hb] at hn ⊢
  obtain ⟨q, hrun, hq⟩ := h.runBody henv h₀ hn hb hid he hsmooth
  refine ⟨b, q, hb, hrun, ?_⟩
  rcases hleave with ⟨hcall, hreturn, hleave⟩ |
    ⟨function, made, rest, result, hcall, -, -, rfl, hcalled, hunwind, hstack⟩
  · exact hq.leaveBlock hb hid hcall hreturn hnan hleave
  · obtain ⟨htype, hfree, hsame⟩ := hreg _ hcalled
    exact hq.skipCall hcall hunwind hstack htype hfree hsame

/-! ## The exit test -/

/-- The exit test of a loop is made by a branch of which just one side stays in the loop,
the one on which the loop goes on. -/
def Branches (g : FlowGraph) (l : Loop) (c : LoopCondition) : Prop :=
  ∃ b onTrue onFalse, g.block? c.block = some b ∧
    b.terminator = .branch c.test onTrue onFalse ∧ l.contains onTrue ≠ l.contains onFalse ∧
    c.continuesOnTrue = l.contains onTrue

theorem readNames_continuation (c : LoopCondition) :
    c.continuation.readNames = c.test.readNames := by
  unfold LoopCondition.continuation
  split <;> rfl

theorem noNaN_continuation (h : NoNaN c.test) : NoNaN c.continuation := by
  unfold LoopCondition.continuation
  split
  · exact h
  · exact h

namespace Branches

theorem test?_eq (h : Branches g l c) (hb : g.block? c.block = some b) :
    b.test? = some c.test := by
  obtain ⟨b', onTrue, onFalse, hb', ht, -⟩ := h
  cases hb.symm.trans hb'
  rw [Block.test?, ht]

theorem mem_names (h : Branches g l c) (hid : l.contains c.block = true) :
    ∀ x ∈ c.continuation.readNames, x ∈ Loop.names g l := by
  obtain ⟨b, onTrue, onFalse, hb, ht, -⟩ := h
  intro x hx
  rw [readNames_continuation] at hx
  exact mem_names_of_branch hb hid ht hx

/-- Where the loop goes on after the exit test, the test said so. -/
theorem holds_of_leave (h : Branches g l c) (hb : g.block? c.block = some b)
    (hid : l.contains c.block = true) (hq : Follows g l c s₀ n q e) (hnan : NoNaN c.test)
    (hleave : leave e b.terminator = .at next s') (hnext : l.contains next = true) :
    s' = e ∧ e.holds c.continuation = .ok true ∧
      continuingTarget? c b.terminator = some next := by
  have hnames : ∀ x ∈ c.test.readNames, x ∈ Loop.names g l := by
    rw [← readNames_continuation]
    exact h.mem_names hid
  obtain ⟨b', onTrue, onFalse, hb', ht, hside, hcont⟩ := h
  cases hb.symm.trans hb'
  unfold LoopCondition.continuation continuingTarget?
  rw [ht] at hleave ⊢
  rw [leave] at hleave
  dsimp only
  split at hleave
  · cases hleave
  · rename_i hholds
    cases hleave
    rw [if_pos (hcont.trans hnext), if_pos (hcont.trans hnext)]
    exact ⟨rfl, hholds, rfl⟩
  · rename_i hholds
    cases hleave
    have hout : ¬ c.continuesOnTrue = true := fun htrue =>
      hside ((hcont.symm.trans htrue).trans hnext.symm)
    rw [if_neg hout, if_neg hout]
    exact ⟨rfl, hq.holds_negated hnames hnan hholds, rfl⟩

end Branches

/-- **A way that comes to the exit test** is judged there, and progress is made if it is
judged good. -/
theorem closer_of_arrival (henv : env.Typed) (h₀ : s₀.Ordered) (h : Follows g l c s₀ n p s)
    (hn : n + bodyLength g c.block < 2 ^ 64) (hid : l.contains c.block = true)
    (hbranch : Branches g l c) (hb : g.block? c.block = some b)
    (he : s.execAll env g.idOf? b.body = .ok e) (hholds : e.holds c.continuation = .ok true)
    (hreg : (Event.entered c.block s).Regular env g l c) :
    ∃ q, runBody g b p = .ok (some q) ∧
      ∀ r r', judgeAt ⟨k, l, c⟩ q r = .ok r' → r'.Convincing → Closer c s₀ e := by
  obtain ⟨hsmooth, hnan⟩ := hreg b hb
  rw [bodyLength_eq hb] at hn
  have hfree : NoNaN c.continuation := noNaN_continuation (hnan _ (hbranch.test?_eq hb))
  obtain ⟨q, hrun, hq⟩ := h.runBody henv h₀ hn hb hid he hsmooth
  refine ⟨q, hrun, fun r r' hjudge hr' => ?_⟩
  obtain ⟨verdict, hverdict, hjudge⟩ := bind_eq_ok_iff.1 hjudge
  rw [hq.judgePath (hbranch.mem_names hid) hfree hholds] at hverdict
  cases hverdict
  cases hjudge
  exact hq.progress h₀ (hbranch.mem_names hid) hfree hholds
    (hr'.good _ (List.mem_append_right _ (List.mem_singleton_self _)))

/-! ## Ways that are settled -/

/-- Every iteration that the way follows makes progress. -/
def Settles (env : Environment) (g : FlowGraph) (l : Loop) (c : LoopCondition) (s₀ : State)
    (w : Walk) : Prop :=
  ∀ n s events e, Follows g l c s₀ n w.path s → l.contains w.block = true →
    l.header ∉ w.unseen →
    n + (w.unseen.map (bodyLength g)).sum + bodyLength g l.header < 2 ^ 64 →
    Way env g l c w.block s events e → (∀ ev ∈ events, ev.Regular env g l c) → Closer c s₀ e

variable {w : Walk}

/-- **A way that passes a block** is settled if the ways that continue it are. -/
theorem settles_of_passBlock (henv : env.Typed) (h₀ : s₀.Ordered) (hbranch : Branches g l c)
    (hinner : (Subject.mk k l c).isInner w.block = false) (hw : w.block ∈ w.unseen)
    (hpass : passBlock g ⟨k, l, c⟩ w.block w.path r = .ok (sides, r')) (hr' : r'.Convincing)
    (hsides : ∀ w' ∈ continuations (w.unseen.erase w.block) sides, Settles env g l c s₀ w') :
    Settles env g l c s₀ w := by
  obtain ⟨block, p, unseen⟩ := w
  intro n s events e hf hid hheader hn hway hreg
  dsimp only at *
  have hsum := List.sum_map_erase (bodyLength g) hw
  cases hway with
  | arrive hb he hholds =>
      obtain ⟨q, hrun, hclose⟩ := closer_of_arrival (k := k) henv h₀ hf (by omega) hid hbranch hb
        he hholds (hreg _ (List.mem_singleton_self _))
      have hne : c.block ≠ l.header := fun heq => hheader (heq ▸ hw)
      rw [passBlock_of_body hb hinner hrun, if_pos rfl, if_neg hne] at hpass
      obtain ⟨r₁, hjudge, hpass⟩ := bind_eq_ok_iff.1 hpass
      cases hpass
      exact hclose _ _ hjudge hr'
  | pass hne hmove hnext hrest =>
      obtain ⟨b, q, hb, hrun, hleave⟩ := exists_side_of_move henv h₀ hf (by omega) hid hmove
        fun ev hev => hreg ev (List.mem_append_left _ hev)
      rw [passBlock_of_body hb hinner hrun, if_neg hne] at hpass
      obtain ⟨found, hfound, hpass⟩ := bind_eq_ok_iff.1 hpass
      cases hpass
      obtain ⟨q', hmem, hq'⟩ := mem_of_yields hleave hfound
      have hway' : (⟨_, q', unseen.erase block⟩ : Walk) ∈
          continuations (unseen.erase block) sides := List.mem_map_of_mem hmem
      refine hsides _ hway' _ _ _ _ hq' hnext (fun h => hheader (List.mem_of_mem_erase h)) ?_
        hrest fun ev hev => hreg ev (List.mem_append_right _ hev)
      dsimp only
      omega

/-- **A way that comes back to a block** is settled: it comes to an exit test in the header,
or would not be judged good. -/
theorem settles_of_comeBack (henv : env.Typed) (h₀ : s₀.Ordered) (hbranch : Branches g l c)
    (hback : comeBack g ⟨k, l, c⟩ w.block w.path r = .ok r') (hr' : r'.Convincing) :
    Settles env g l c s₀ w := by
  obtain ⟨block, p, unseen⟩ := w
  intro n s events e hf hid hheader hn hway hreg
  dsimp only at *
  have hfirst : block = l.header ∧ (Subject.mk k l c).testsFirst = true := by
    by_contra hno
    unfold comeBack at hback
    rw [if_neg hno] at hback
    cases hback
    exact absurd (hr'.good _ (List.mem_append_right _ (List.mem_singleton_self _))) (by simp)
  have htest : c.block = l.header := by simpa [Subject.testsFirst] using hfirst.2
  cases hway with
  | arrive hb he hholds =>
      obtain ⟨q, hrun, hclose⟩ := closer_of_arrival (k := k) henv h₀ hf
        (by rw [hfirst.1]; omega) hid hbranch hb he hholds (hreg _ (List.mem_singleton_self _))
      unfold comeBack at hback
      rw [if_pos hfirst, hb] at hback
      obtain ⟨after, hafter, hback⟩ := bind_eq_ok_iff.1 hback
      cases hrun.symm.trans hafter
      exact hclose _ _ hback hr'
  | pass hne _ _ _ => exact absurd (hfirst.1.trans htest.symm) hne

/-- **A replay that convinces** settles all ways that it follows. -/
theorem settles_of_replayAll (henv : env.Typed) (h₀ : s₀.Ordered) (hbranch : Branches g l c)
    (hinner : ∀ id, (Subject.mk k l c).isInner id = false) {frontier : Frontier Walk}
    (h : replayAll g ⟨k, l, c⟩ maxPaths frontier r = .ok fin) (hfin : fin.Convincing) :
    ∀ w ∈ frontier.pending, Settles env g l c s₀ w := by
  fun_induction replayAll g ⟨k, l, c⟩ maxPaths frontier r with
  | case1 _ _ hp =>
      rw [hp]
      simp
  | case2 => cases h
  | case3 f _ w rest hp others hunseen sides r' hpass ways ih =>
      have hsplit := (grows_of_replayAll h).convincing hfin
      have hroom : others.overflows maxPaths ways = false :=
        (Bool.or_eq_false_iff.1 hsplit.complete).2
      intro w' hw'
      rw [hp] at hw'
      rcases List.mem_cons.1 hw' with rfl | hw'
      · exact settles_of_passBlock henv h₀ hbranch (hinner _) hunseen hpass
          ((Replay.Grows.overflow ..).convincing hsplit)
          fun side hside => ih h side (mem_pending_advance hroom hside)
      · exact ih h w' (List.mem_append_right _ hw')
  | case4 => cases h
  | case5 f _ w rest hp others _ _ r' hback ih =>
      intro w' hw'
      rw [hp] at hw'
      rcases List.mem_cons.1 hw' with rfl | hw'
      · exact settles_of_comeBack henv h₀ hbranch hback ((grows_of_replayAll h).convincing hfin)
      · exact ih h w' hw'
  | case6 f _ w rest hp others _ hout ih =>
      intro w' hw'
      rw [hp] at hw'
      rcases List.mem_cons.1 hw' with rfl | hw'
      · exact fun _ _ _ _ _ hin => absurd hin hout
      · exact ih h w' hw'

/-! ## The start of an iteration -/

/-- **The header** is left on a side that follows. -/
theorem exists_side_of_header (henv : env.Typed) (h₀ : s₀.Ordered) (hbranch : Branches g l c)
    (hinner : (Subject.mk k l c).isInner l.header = false) (h : Follows g l c s₀ n p s)
    (hn : n + bodyLength g l.header < 2 ^ 64) (hid : l.contains l.header = true)
    (hmove : Move env g l.header s events next s') (hreg : ∀ ev ∈ events, ev.Regular env g l c)
    (hnext : l.contains next = true)
    (hpass : passBlock g ⟨k, l, c⟩ l.header p r = .ok (sides, r')) :
    ∃ q, (next, q) ∈ sides ∧ Follows g l c s₀ (n + bodyLength g l.header) q s' := by
  by_cases htest : l.header = c.block
  · obtain ⟨hentered, b, e, hb, he, hleave⟩ := cases_of_move hmove
    obtain ⟨hsmooth, hnan⟩ := hreg _ hentered b hb
    have hb' : g.block? c.block = some b := htest ▸ hb
    have hid' : l.contains c.block = true := htest ▸ hid
    have htest? := hbranch.test?_eq hb'
    rcases hleave with ⟨-, -, hleave⟩ | ⟨_, _, _, _, _, _, hnone, _⟩
    · rw [bodyLength_eq hb] at hn ⊢
      obtain ⟨q, hrun, hq⟩ := h.runBody henv h₀ hn hb hid he hsmooth
      obtain ⟨rfl, hholds, htarget⟩ :=
        hbranch.holds_of_leave hb' hid' hq (hnan _ htest?) hleave hnext
      rw [passBlock_of_body hb hinner hrun, if_pos htest, if_pos rfl] at hpass
      obtain ⟨found, hfound, hpass⟩ := bind_eq_ok_iff.1 hpass
      cases hpass
      exact mem_of_yields (hq.enterLoop (hbranch.mem_names hid')
        (noNaN_continuation (hnan _ htest?)) hholds htarget) hfound
    · rw [htest?] at hnone
      cases hnone
  · obtain ⟨b, q, hb, hrun, hleave⟩ := exists_side_of_move henv h₀ h hn hid hmove hreg
    rw [passBlock_of_body hb hinner hrun, if_neg htest] at hpass
    obtain ⟨found, hfound, hpass⟩ := bind_eq_ok_iff.1 hpass
    cases hpass
    exact mem_of_yields hleave hfound

/-- The number of instructions in the blocks of a loop. -/
def Loop.instructionCount (g : FlowGraph) (l : Loop) : Nat :=
  (l.body.toList.map (bodyLength g)).sum

/-- **A replay that convinces** shows that every iteration makes progress. -/
theorem closer_of_replay (henv : env.Typed) (hbranch : Branches g l c)
    (hinner : ∀ id, (Subject.mk k l c).isInner id = false) (hid : l.contains l.header = true)
    (h₀ : s₀.Ordered) (hstart : Follows g l c s₀ n p s₀)
    (hn : n + 2 * Loop.instructionCount g l < 2 ^ 64)
    (hreplay : replay g ⟨k, l, c⟩ maxPaths p = .ok r) (hr : r.Convincing)
    (hiter : Iteration env g l c s₀ events e) (hreg : ∀ ev ∈ events, ev.Regular env g l c) :
    Closer c s₀ e := by
  obtain ⟨first, more, next, s', rfl, hmove, hnext, hway⟩ := hiter
  have hmem : l.header ∈ l.body.toList := BitSet.mem_toList.2 hid
  have hsum := List.sum_map_erase (bodyLength g) hmem
  have hnodup : l.body.toList.Nodup := (BitSet.pairwise_toList l.body).imp Nat.ne_of_lt
  unfold Loop.instructionCount at hn
  rw [replay, replayAll_cons rfl] at hreplay
  dsimp only at hreplay
  rw [if_pos hmem] at hreplay
  split at hreplay
  · cases hreplay
  · rename_i sides r' hpass
    obtain ⟨q, hside, hq⟩ := exists_side_of_header henv h₀ hbranch (hinner _) hstart (by omega)
      hid hmove (fun ev hev => hreg ev (List.mem_append_left _ hev)) hnext hpass
    have hsplit := (grows_of_replayAll hreplay).convincing hr
    have hwalk : (⟨next, q, l.body.toList.erase l.header⟩ : Walk) ∈
        continuations (l.body.toList.erase l.header) sides := List.mem_map_of_mem hside
    have hpending := mem_pending_advance (Bool.or_eq_false_iff.1 hsplit.complete).2 hwalk
    refine settles_of_replayAll henv h₀ hbranch hinner hreplay hr _ hpending _ _ _ _ hq hnext
      hnodup.not_mem_erase ?_ hway fun ev hev => hreg ev (List.mem_append_right _ hev)
    dsimp only
    omega

end Steps

end Termination
end FlowVerifier
