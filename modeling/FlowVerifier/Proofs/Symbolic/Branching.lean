import FlowVerifier.Proofs.Symbolic.Transfer

/-!
# Branches on paths and in states

A path that comes to a branch goes on to the block that a state goes on to, for every
state that it describes.

* `relation_sound`: what is found out about two variables by following relations from
  one to the next is right.
* `holds_of_must` and `holds_of_cant`: a test that is decided has the same outcome in all
  states that the path describes.
* `narrowedTo_describes`: narrowing a path to a test keeps the states in which it holds.
* `takeBranch_describes` puts them together, up to what the search follows next.

Numbers that compare with nothing have no place in an interval.  A test for being
different from such a number holds in every state, and is taken not to hold;
`takeBranch_nan` shows it.
-/

namespace FlowVerifier

/-- The test does not ask whether something is different from NaN. -/
def Comparison.Orderly (test : Comparison) : Prop :=
  test.op = .ne → ∀ l, test.lhs = .literal l ∨ test.rhs = .literal l → l.isNaN = false

open Run

namespace Symbolic

open Exec

variable {p q : Path} {s : State} {l m : Literal} {test : Comparison} {b : Bool}

/-! ## What is known about two variables -/

/-- The value `l` stands in the relation to what the variable holds. -/
def Related (s : State) (l : Literal) (name : String) (op : RelOp) : Prop :=
  ∃ m, s.vars name = some m ∧ op.fold l m = .ok true

/-- A step along a current relation. -/
theorem related_stepsFrom (h : p.Describes s) (hl : l.isNaN = false) {name : String}
    {via : RelOp} (hvia : Related s l name via) {e : String × RelOp}
    (he : e ∈ p.vars.stepsFrom name via) : Related s l e.1 e.2 := by
  obtain ⟨m, hm, hfold⟩ := hvia
  obtain ⟨v, hv, hd⟩ := h.of_held hm
  obtain ⟨r, hr, hcompose⟩ := List.mem_filterMap.1 he
  unfold Scopes.currentRelations at hr
  rw [show p.vars.get? name = some v from hv] at hr
  obtain ⟨hmem, hcurrent⟩ := List.mem_filter.1 hr
  obtain ⟨w, k, hw, hk, -, hsound⟩ := hd.relations r hmem
  rw [hw, Option.map_some, beq_iff_eq, Option.some.injEq] at hcurrent
  obtain ⟨op, hop, rfl⟩ := Option.map_eq_some_iff.1 hcompose
  obtain ⟨u, hu, hud⟩ := h.of_held hk
  exact ⟨k, hk, RelOp.fold_of_compose hl (Value.isNaN_of_contains hd.value)
    (Value.isNaN_of_contains hud.value) hop hfold (hsound hcurrent.symm)⟩

/-- **What is known about two variables is right.** -/
theorem relation_sound (h : p.Describes s) {lhs rhs : String} {op : RelOp}
    (hl : s.vars lhs = some l) (hm : s.vars rhs = some m)
    (hop : p.vars.relation lhs rhs = some op) : op.fold l m = .ok true := by
  obtain ⟨v, -, hd⟩ := h.of_held hl
  have hnan := Value.isNaN_of_contains hd.value
  have hself : Related s l lhs .eq := ⟨l, hl, RelOp.fold_eq_self hnan⟩
  unfold Scopes.relation at hop
  split at hop
  · rename_i heq
    subst heq
    cases hop
    rw [hl] at hm
    cases hm
    exact RelOp.fold_eq_self hnan
  · obtain ⟨k, hk, hfold⟩ := p.vars.follow_all (P := fun e => Related s l e.1 e.2)
      (fun name via hvia e he => related_stepsFrom h hnan hvia he) _ _ _
      (fun e he => related_stepsFrom h hnan hself he) (by simp) op hop
    rw [hm] at hk
    cases hk
    exact hfold

/-! ## Operands -/

/-- The operand is read as a constant that the value on the path allows for. -/
def ReadAs (p : Path) (s : State) (o : Operand) (v : Value) (l : Literal) : Prop :=
  readOperand p o = .ok v ∧ s.read o = .ok l ∧ v.Allows l

theorem ReadAs.isNaN {o : Operand} {v : Value} (h : ReadAs p s o v l)
    (ho : ∀ k, o = .literal k → k.isNaN = false) (hd : p.Describes s) : l.isNaN = false := by
  obtain ⟨-, hl, -⟩ := h
  cases o with
  | literal k =>
      cases hl
      exact ho l rfl
  | var name =>
      simp only [State.read] at hl
      split at hl
      · rename_i k hk
        cases hl
        obtain ⟨v, -, hv⟩ := hd.of_held hk
        exact Value.isNaN_of_contains hv.value
      · exact absurd hl (by simp)

theorem exists_readAs (h : p.Describes s) {o : Operand} {v : Value}
    (hv : readOperand p o = .ok v) : ∃ l, ReadAs p s o v l := by
  cases o with
  | literal k =>
      cases hv
      exact ⟨k, rfl, rfl, .inr rfl⟩
  | var name =>
      simp only [readOperand] at hv
      split at hv
      · exact absurd hv (by simp)
      · rename_i w hw
        cases hv
        obtain ⟨l, hl, hd⟩ := h.of_var? hw
        exact ⟨l, by simp only [readOperand, hw], by simp only [State.read, hl], .inl hd.value⟩

/-- Where a test can be made, its operands can be read on the path. -/
theorem readTest_of_holds (h : p.Describes s) (hb : s.holds test = .ok b) :
    ∃ v w l m, readTest p test = .ok (v, w) ∧ ReadAs p s test.lhs v l ∧
      ReadAs p s test.rhs w m ∧ test.op.fold l m = .ok b := by
  obtain ⟨l, hl, hb⟩ := bind_eq_ok_iff.1 hb
  obtain ⟨m, hm, hb⟩ := bind_eq_ok_iff.1 hb
  obtain ⟨v, hv, hvl⟩ := readOperand_of_read h hl
  obtain ⟨w, hw, hwm⟩ := readOperand_of_read h hm
  refine ⟨v, w, l, m, by rw [readTest, hv, hw], ⟨hv, hl, hvl⟩, ⟨hw, hm, hwm⟩, ?_⟩
  split at hb
  · cases hb
    assumption
  · exact absurd hb (by simp [throw, throwThe, MonadExceptOf.throw])

/-- Where the operands of a test can be read on the path, they can be read. -/
theorem readAs_of_readTest (h : p.Describes s) {v w : Value}
    (hr : readTest p test = .ok (v, w)) :
    ∃ l m, ReadAs p s test.lhs v l ∧ ReadAs p s test.rhs w m := by
  unfold readTest at hr
  split at hr
  · exact absurd hr (by simp)
  · exact absurd hr (by simp)
  · rename_i hv hw
    cases hr
    obtain ⟨l, hl⟩ := exists_readAs h hv
    obtain ⟨m, hm⟩ := exists_readAs h hw
    exact ⟨l, m, hl, hm⟩

/-! ## Deciding a test -/

theorem knownRelation?_sound (h : p.Describes s) {op : RelOp} {v w : Value}
    (hv : ReadAs p s test.lhs v l) (hw : ReadAs p s test.rhs w m)
    (hop : knownRelation? p test = some op) :
    op.fold l m = .ok true ∧ l.isNaN = false ∧ m.isNaN = false := by
  unfold knownRelation? at hop
  split at hop
  · rename_i x y hx hy
    rw [hx] at hv
    rw [hy] at hw
    have hheld : ∀ {name u k}, ReadAs p s (.var name) u k → s.vars name = some k := by
      rintro name u k ⟨-, hk, -⟩
      simp only [State.read] at hk
      split at hk
      · cases hk
        assumption
      · exact absurd hk (by simp)
    exact ⟨relation_sound h (hheld hv) (hheld hw) hop, hv.isNaN (by simp) h, hw.isNaN (by simp) h⟩
  · exact absurd hop (by simp)

/-- A test that can be made is decided, or left open. -/
theorem judged_of_holds (h : p.Describes s) (hb : s.holds test = .ok b) :
    ∃ d, judged p test = .ok d := by
  obtain ⟨v, w, l, m, hr, ⟨-, -, hv⟩, ⟨-, -, hw⟩, hfold⟩ := readTest_of_holds h hb
  obtain ⟨d, hd⟩ := Value.canMeet_eq_ok test.op
    (hv.type.trans ((RelOp.type_of_fold hfold).trans hw.type.symm))
  unfold judged
  rw [hr]
  dsimp only [judgedWith]
  split
  · exact ⟨_, rfl⟩
  · split
    · exact ⟨_, rfl⟩
    · exact ⟨d, hd⟩

/-- How a test was decided: by a relation or by the values. -/
theorem judged_cases (h : p.Describes s) {d : Satisfiability} (hj : judged p test = .ok d) :
    ∃ v w l m, ReadAs p s test.lhs v l ∧ ReadAs p s test.rhs w m ∧
      ((d = .must ∧ test.op.fold l m = .ok true) ∨ (d = .cant ∧ test.op.fold l m = .ok false) ∨
        v.canMeet test.op w = .ok d) := by
  unfold judged at hj
  split at hj
  · exact absurd hj (by simp)
  · rename_i v w hr
    obtain ⟨l, m, hv, hw⟩ := readAs_of_readTest h hr
    refine ⟨v, w, l, m, hv, hw, ?_⟩
    unfold judgedWith at hj
    split at hj
    · rename_i hknown
      obtain ⟨op, hop, himp⟩ := (Option.any_eq_true _ _).1 hknown
      obtain ⟨hfold, hl, hm⟩ := knownRelation?_sound h hv hw hop
      cases hj
      exact .inl ⟨rfl, RelOp.fold_of_implies hl hm himp hfold⟩
    · split at hj
      · rename_i hknown
        obtain ⟨op, hop, himp⟩ := (Option.any_eq_true _ _).1 hknown
        obtain ⟨hfold, hl, hm⟩ := knownRelation?_sound h hv hw hop
        have hneg := RelOp.fold_of_implies hl hm himp hfold
        have hback := RelOp.fold_negate hl hm hneg
        rw [RelOp.negate_negate] at hback
        cases hj
        exact .inr (.inl ⟨rfl, hback⟩)
      · exact .inr (.inr hj)

theorem yields_decideTest {d : Satisfiability} (hd : judged p test = .ok d) :
    Yields (decideTest test) p fun d' q => d' = d ∧ q = p := by
  intro ws
  obtain ⟨ws', hrun⟩ := outcome_decideTest test ⟨p, ws⟩
  dsimp only at hrun
  rw [hd] at hrun
  exact ⟨d, p, ws', hrun, rfl, rfl⟩

/-- **A test that must hold** holds in all states of the path. -/
theorem holds_of_must (h : p.Describes s) (hj : judged p test = .ok .must) :
    s.holds test = .ok true := by
  obtain ⟨v, w, l, m, hv, hw, ⟨-, hfold⟩ | ⟨hd, -⟩ | hmeet⟩ := judged_cases h hj
  · exact State.holds_eq_ok hv.2.1 hw.2.1 hfold
  · exact absurd hd (by decide)
  · exact State.holds_eq_ok hv.2.1 hw.2.1 (hv.2.2.fold_of_must hw.2.2 hmeet)

/-- **A test that cannot hold** fails in all states of the path. -/
theorem holds_of_cant (h : p.Describes s) (ho : test.Orderly)
    (hj : judged p test = .ok .cant) : s.holds test = .ok false := by
  obtain ⟨v, w, l, m, hv, hw, ⟨hd, -⟩ | ⟨-, hfold⟩ | hmeet⟩ := judged_cases h hj
  · exact absurd hd (by decide)
  · exact State.holds_eq_ok hv.2.1 hw.2.1 hfold
  · have hn : test.op = .ne → l.isNaN = false ∧ m.isNaN = false := fun hne =>
      ⟨hv.isNaN (fun k hk => ho hne k (.inl hk)) h, hw.isNaN (fun k hk => ho hne k (.inr hk)) h⟩
    exact State.holds_eq_ok hv.2.1 hw.2.1 (hv.2.2.fold_of_cant hw.2.2 hn hmeet)

/-! ## Narrowing a path -/

theorem Path.Describes.fork (h : p.Describes s) : p.fork.Describes s := by
  have ha : Advances p.vars s.vars p.fork.vars s.vars := fun name w m hw hm =>
    ⟨w, m, (Scopes.get?_fork p.vars name).trans hw, hm, .inl ⟨rfl, rfl⟩⟩
  refine ⟨fun name => ?_, h.arrays, h.stack.imp fun _ _ => StackEntry.Describes.advance ha⟩
  show Option.Rel _ (p.vars.fork.get? name) (s.vars name)
  rw [Scopes.get?_fork]
  exact rel_imp (h.scalars name) fun _ _ hd => hd.advance ha

/-- Fewer values are known of an operand, the right one among them. -/
theorem Path.Describes.narrowOperand (h : p.Describes s) {o : Operand} {v : Value}
    (hl : s.read o = .ok l) (hv : v.contains l = true) :
    (narrowOperand p o v).Describes s := by
  cases o with
  | literal k => exact h
  | var name =>
      refine h.modifyVar (fun _ => rfl) fun w k _ hk hd => ⟨hd.type, ?_, hd.relations⟩
      simp only [State.read, hk, Except.ok.injEq] at hl
      exact hl ▸ hv

theorem Path.Describes.relateOperands (h : p.Describes s) (hl : s.read test.lhs = .ok l)
    (hm : s.read test.rhs = .ok m) (hfold : test.op.fold l m = .ok true) :
    (relateOperands p test).Describes s := by
  unfold Symbolic.relateOperands
  split
  · rename_i x y hx hy
    rw [hx] at hl
    rw [hy] at hm
    simp only [State.read] at hl hm
    split at hl <;> split at hm <;> cases hl <;> cases hm
    exact h.relate (by assumption) (by assumption) hfold
  · exact h

/-- **Narrowing** a path to a test keeps the states in which it holds. -/
theorem narrowedTo_describes (h : p.Describes s) {v w : Value}
    (hr : readTest p test = .ok (v, w)) (hl : s.read test.lhs = .ok l)
    (hm : s.read test.rhs = .ok m) (hv : v.contains l = true) (hw : w.contains m = true)
    (hfold : test.op.fold l m = .ok true) :
    ∃ q, narrowedTo p test = .ok (true, q) ∧ q.Describes s := by
  have hflip := RelOp.fold_flip (Value.isNaN_of_contains hv) (Value.isNaN_of_contains hw) hfold
  obtain ⟨left, hleft, hlmem⟩ := Value.contains_clip hv hw hfold
  obtain ⟨right, hright, hrmem⟩ := Value.contains_clip hw hv hflip
  refine ⟨_, ?_, ((h.narrowOperand hl hlmem).narrowOperand hm hrmem).relateOperands hl hm hfold⟩
  simp only [narrowedTo, hr, hleft, hright, Value.isEmpty_of_contains hlmem,
    Value.isEmpty_of_contains hrmem]
  rfl

/-- A path can be narrowed to every test on values of one type. -/
theorem narrowedTo_eq_ok {v w : Value} (hr : readTest p test = .ok (v, w))
    (ht : v.type = w.type) : ∃ r, narrowedTo p test = .ok r := by
  obtain ⟨left, hleft⟩ := Value.clip_eq_ok test.op ht
  obtain ⟨right, hright⟩ := Value.clip_eq_ok test.op.flip ht.symm
  simp only [narrowedTo, hr, hleft, hright]
  split
  · exact ⟨_, rfl⟩
  · exact ⟨_, rfl⟩

/-! ## Splitting a path -/

/-- An undecided test splits a path into tests of the same operands. -/
theorem operands_of_mem_splitOf {onTrue onFalse : BlockId} {e : Comparison × BlockId}
    (he : e ∈ splitOf test onTrue onFalse) : e.1.lhs = test.lhs ∧ e.1.rhs = test.rhs := by
  unfold splitOf at he
  split at he <;>
    simp only [List.mem_cons, List.not_mem_nil, or_false] at he <;>
    rcases he with rfl | rfl | rfl <;> exact ⟨rfl, rfl⟩

/-- **One of the tests of a split holds**, and it leads where the test leads. -/
theorem exists_mem_splitOf (onTrue onFalse : BlockId) (hl : l.isNaN = false)
    (hm : m.isNaN = false) (hfold : test.op.fold l m = .ok b) :
    ∃ side, (side, if b then onTrue else onFalse) ∈ splitOf test onTrue onFalse ∧
      side.op.fold l m = .ok true := by
  have htri := RelOp.fold_trichotomy hl hm (RelOp.type_of_fold hfold)
  have hneg := RelOp.fold_negate hl hm hfold
  unfold splitOf
  split <;> rename_i hop <;> cases b
  · rw [hop] at hfold
    rcases htri with h | h | h
    · exact ⟨{ test with op := .lt }, by simp, h⟩
    · exact absurd (hfold.symm.trans h) (by simp)
    · exact ⟨{ test with op := .gt }, by simp, h⟩
  · exact ⟨test, by simp, hfold⟩
  · rw [hop] at hneg
    exact ⟨{ test with op := .eq }, by simp, hneg⟩
  · rw [hop] at hneg
    rcases htri with h | h | h
    · exact ⟨{ test with op := .lt }, by simp, h⟩
    · exact absurd (hneg.symm.trans h) (by simp)
    · exact ⟨{ test with op := .gt }, by simp, h⟩
  · exact ⟨test.negated, by simp, hneg⟩
  · exact ⟨test, by simp, hfold⟩

/-- One side of a split is followed if the path can be narrowed to its test. -/
theorem yields_sideOf (node : String) (target : BlockId) {possible : Bool}
    (hr : narrowedTo p.fork test = .ok (possible, q)) :
    Yields (sideOf node test target) p fun side p' =>
      side = (if possible then some (target, q.assume node test) else none) ∧ p' = p := by
  intro ws
  obtain ⟨ws', hrun⟩ := outcome_sideOf node test target ⟨p, ws⟩
  dsimp only at hrun
  rw [hr] at hrun
  exact ⟨_, p, ws', hrun, rfl, rfl⟩

/-- **All possible sides** of a split are followed. -/
theorem yields_possibleSides (node : String) (tests : List (Comparison × BlockId))
    (hall : ∀ e ∈ tests, ∃ r, narrowedTo p.fork e.1 = .ok r) :
    Yields (possibleSides node tests) p fun sides p' =>
      (∀ e ∈ tests, ∀ q, narrowedTo p.fork e.1 = .ok (true, q) →
        (e.2, q.assume node e.1) ∈ sides) ∧ p' = p := by
  unfold possibleSides
  induction tests with
  | nil => exact .pure ⟨by simp, rfl⟩
  | cons e rest ih =>
      obtain ⟨⟨possible, q⟩, hq⟩ := hall e (List.mem_cons_self ..)
      rw [List.filterMapM_cons]
      refine (yields_sideOf node e.2 hq).bind ?_
      rintro _ p ⟨rfl, rfl⟩
      have hrest := ih fun e he => hall e (List.mem_cons_of_mem _ he)
      cases possible with
      | false =>
          refine hrest.imp ?_
          rintro sides p' ⟨hsides, rfl⟩
          refine ⟨fun e' he' q' hq' => ?_, rfl⟩
          rcases List.mem_cons.1 he' with rfl | he'
          · rw [hq] at hq'
            exact absurd hq' (by simp)
          · exact hsides e' he' q' hq'
      | true =>
          refine hrest.bind ?_
          rintro sides p' ⟨hsides, rfl⟩
          refine .pure ⟨fun e' he' q' hq' => ?_, rfl⟩
          rcases List.mem_cons.1 he' with rfl | he'
          · rw [hq] at hq'
            cases hq'
            exact List.mem_cons_self ..
          · exact List.mem_cons_of_mem _ (hsides e' he' q' hq')

/-! ## Branches -/

/-- Nothing is given up where few enough ways are started. -/
theorem mem_pending_advance {α : Type} {f : Frontier α} {cap : Nat} {sides : List α} {x : α}
    (ho : f.overflows cap sides = false) (hx : x ∈ sides) : x ∈ (f.advance cap sides).pending := by
  have hroom : sides.dropLast.length ≤ f.room cap := by
    rw [List.length_dropLast]
    simpa [Frontier.overflows] using ho
  unfold Frontier.advance
  dsimp only
  rw [List.take_of_length_le hroom]
  have hne : sides ≠ [] := List.ne_nil_of_mem hx
  rw [← List.dropLast_append_getLast hne, List.mem_append, List.mem_singleton] at hx
  rcases hx with hx | rfl
  · simp [hx]
  · simp [List.getLast?_eq_some_getLast hne]

theorem mem_prospects {left : Nat} {sides : List Side} {target : BlockId}
    (h : (target, q) ∈ sides) : (⟨target, q, left⟩ : Prospect) ∈ prospects left sides :=
  List.mem_map_of_mem h

/-- What is open is open by the values. -/
theorem canMeet_of_judged_may {v w : Value} (hr : readTest p test = .ok (v, w))
    (hj : judged p test = .ok .may) : v.canMeet test.op w = .ok .may := by
  simp only [judged, hr, judgedWith] at hj
  split at hj
  · exact absurd hj (by simp)
  · split at hj
    · exact absurd hj (by simp)
    · exact hj

theorem readTest_fork (p : Path) (test : Comparison) :
    readTest p.fork test = readTest p test := by
  have hread : ∀ o, readOperand p.fork o = readOperand p o := by
    intro o
    cases o with
    | literal l => rfl
    | var name => simp only [readOperand, Path.var?, Path.fork, Scopes.get?_fork]
  rw [readTest, readTest, hread, hread]

/-- A branch leads where its test leads. -/
theorem yields_takeBranch (node : String) (onTrue onFalse : BlockId) (h : p.Describes s)
    (ho : test.Orderly) (hb : s.holds test = .ok b) :
    Yields (takeBranch node test onTrue onFalse) p fun sides _ =>
      ∃ q, (if b then onTrue else onFalse, q) ∈ sides ∧ q.Describes s := by
  obtain ⟨d, hd⟩ := judged_of_holds h hb
  refine Yields.bind (yields_decideTest hd) ?_
  rintro d p ⟨rfl, rfl⟩
  cases d with
  | must =>
      obtain rfl : b = true := Except.ok.inj (hb.symm.trans (holds_of_must h hd))
      refine (Yields.modifyPath _).bind ?_
      rintro - _ rfl
      refine Yields.path.bind ?_
      rintro _ _ ⟨rfl, rfl⟩
      exact .pure ⟨_, List.mem_singleton_self _, h.scalars, h.arrays, h.stack⟩
  | cant =>
      obtain rfl : b = false := Except.ok.inj (hb.symm.trans (holds_of_cant h ho hd))
      refine (Yields.modifyPath _).bind ?_
      rintro - _ rfl
      refine Yields.path.bind ?_
      rintro _ _ ⟨rfl, rfl⟩
      exact .pure ⟨_, List.mem_singleton_self _, h.scalars, h.arrays, h.stack⟩
  | may =>
      obtain ⟨v, w, l, m, hr, ⟨-, hl, hv⟩, ⟨-, hm, hw⟩, hfold⟩ := readTest_of_holds h hb
      have hmeet := canMeet_of_judged_may hr hd
      obtain ⟨hnl, hnm⟩ := hv.isNaN_of_canMeet hw hmeet (by decide)
      have hread : ∀ e ∈ splitOf test onTrue onFalse, readTest p.fork e.1 = .ok (v, w) := by
        intro e he
        obtain ⟨hlhs, hrhs⟩ := operands_of_mem_splitOf he
        rw [readTest_fork, readTest, hlhs, hrhs]
        exact hr
      refine (yields_possibleSides node _ fun e he =>
        narrowedTo_eq_ok (hread e he) (Value.type_of_canMeet hmeet)).imp ?_
      rintro sides p ⟨hsides, rfl⟩
      obtain ⟨side, hside, hholds⟩ := exists_mem_splitOf onTrue onFalse hnl hnm hfold
      obtain ⟨hlhs, hrhs⟩ := operands_of_mem_splitOf hside
      obtain ⟨q, hq, hdesc⟩ := narrowedTo_describes h.fork (hread _ hside) (hlhs ▸ hl)
        (hrhs ▸ hm) (hv.contains hnl) (hw.contains hnm) hholds
      exact ⟨_, hsides _ hside q hq, hdesc.scalars, hdesc.arrays, hdesc.stack⟩

/-- **Branches.**  A decision is right for all states of the path, and a state goes on to
where one of the sides goes on, which then describes it.  Of the sides none is given up
unless too many ways have been started. -/
theorem takeBranch_describes (node : String) (onTrue onFalse : BlockId) (h : p.Describes s)
    (ho : test.Orderly) (hb : s.holds test = .ok b) (ws : Array String) :
    (∃ d ws', outcome (decideTest test) ⟨p, ws⟩ = (.ok d, ⟨p, ws'⟩) ∧
      (d = .must → ∀ s', p.Describes s' → s'.holds test = .ok true) ∧
      (d = .cant → ∀ s', p.Describes s' → s'.holds test = .ok false)) ∧
    ∃ sides t, outcome (takeBranch node test onTrue onFalse) ⟨p, ws⟩ = (.ok sides, t) ∧
      ∃ q, (if b then onTrue else onFalse, q) ∈ sides ∧ q.Describes s ∧
        ∀ (frontier : Frontier Prospect) (cap left : Nat),
          frontier.overflows cap (prospects left sides) = false →
          ⟨if b then onTrue else onFalse, q, left⟩ ∈
            (frontier.advance cap (prospects left sides)).pending := by
  obtain ⟨d, hd⟩ := judged_of_holds h hb
  obtain ⟨_, _, ws', hrun, rfl, rfl⟩ := yields_decideTest hd ws
  obtain ⟨sides, p', ws'', hbranch, q, hq, hdesc⟩ :=
    yields_takeBranch node onTrue onFalse h ho hb ws
  refine ⟨⟨_, ws', hrun, ?_, ?_⟩, sides, _, hbranch, q, hq, hdesc, ?_⟩
  · rintro rfl s' hs'
    exact holds_of_must hs' hd
  · rintro rfl s' hs'
    exact holds_of_cant hs' ho hd
  · exact fun frontier cap left hroom => mem_pending_advance hroom (mem_prospects hq)

/-- A relation that is out of date decides nothing. -/
theorem takeBranch_describes_flooded :
    (flooded 7).Describes floodedState ∧
      floodedState.holds ⟨.var "x", .eq, .var "y"⟩ = .ok false ∧
      ∃ sides t, outcome (takeBranch "main" ⟨.var "x", .eq, .var "y"⟩ 1 2)
          ⟨flooded 7, #[]⟩ = (.ok sides, t) ∧
        ∃ q, (2, q) ∈ sides ∧ q.Describes floodedState := by
  have h : (flooded 7).Describes floodedState := flooded_describes (by decide)
  have hholds : floodedState.holds ⟨.var "x", .eq, .var "y"⟩ = .ok false := rfl
  obtain ⟨-, sides, t, hrun, q, hq, hd, -⟩ :=
    takeBranch_describes "main" 1 2 h (by simp [Comparison.Orderly]) hholds #[]
  exact ⟨h, hholds, sides, t, hrun, q, hq, hd⟩

/-- **A state that is lost.**  One differs from NaN, and the only side that is followed is
the one on which it does not. -/
theorem takeBranch_nan :
    Path.start.Describes {} ∧
      ({} : State).holds ⟨.literal (.number .one), .ne, .literal (.number .nan)⟩ = .ok true ∧
      ∃ q t, outcome (takeBranch "main" ⟨.literal (.number .one), .ne, .literal (.number .nan)⟩
        1 2) ⟨.start, #[]⟩ = (.ok [(2, q)], t) :=
  ⟨⟨fun _ => .none, fun _ => .none, .nil⟩, rfl, _, _, rfl⟩

end Symbolic
end FlowVerifier
