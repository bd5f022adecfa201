import Mathlib
import FlowVerifier.Proofs.Termination.Replays

/-!
# Loops that terminate

The verdict that a loop terminates rests on one iteration: `terminates_progress` says that
an iteration that the replay follows faithfully brings the operands of the exit test
closer to the end.

* `Branches.of_forest` is what a forest of loops says of the exit test of a loop.
* `Starts` are the states in which an iteration starts that the replay follows.
* `terminates_diverging` is a loop of which the verdict is wrong: the replay skips the call
  in its body, and the function undoes what the body does.
-/

namespace FlowVerifier

open Run Symbolic

/-! ## Loops of a forest -/

namespace LoopForest

variable {g : FlowGraph} {forest : LoopForest} {k : Nat} {l : Loop}

/-- **A loop of the program** has its header inside, and its exit test is the first one of
the header and the tails. -/
theorem natural_of_ofGraph (hforest : ofGraph g = .ok forest) (hl : forest.get? k = some l) :
    l.contains l.header = true ∧ l.condition = l.natural.condition? g := by
  unfold ofGraph nest at hforest
  dsimp only at hforest
  split at hforest
  · cases hforest
  · cases hforest
    obtain ⟨a, ha, rfl⟩ := (built_foldl g _).get?_eq_some.1 hl
    have hmem := (NaturalLoop.perm_sorted _).mem_iff.1 (List.mem_of_getElem? ha)
    obtain ⟨entry, -, hloop⟩ := mem_collected.1 hmem
    exact ⟨(hloop.contains _).2 (.inl rfl), rfl⟩

end LoopForest

namespace Termination

section Verdict

variable {env : Environment} {g : FlowGraph} {forest : LoopForest} {summary : SearchSummary}
  {l : Loop} {c : LoopCondition} {s s₀ e : State} {st : Path} {k n maxPaths : Nat}
  {events : List Event}

theorem Branches.of_condition? {a : NaturalLoop} (h : a.condition? g = some c)
    (hbody : l.body = a.body) : Branches g l c := by
  obtain ⟨id, -, hid⟩ := List.exists_of_findSome?_eq_some h
  unfold NaturalLoop.conditionAt? at hid
  split at hid
  · rename_i test onTrue onFalse hterm
    obtain ⟨b, hb, ht⟩ := Option.map_eq_some_iff.1 hterm
    split at hid
    · cases hid
    · rename_i hside
      cases hid
      rw [← hbody] at hside
      exact ⟨b, onTrue, onFalse, hb, ht, hside, congrArg (BitSet.contains · onTrue) hbody.symm⟩
  · cases hid

/-- Only an exit test and a convincing replay lead to the verdict that a loop terminates. -/
theorem exists_replay_of_terminates {a : LoopAnalysis} (hl : forest.get? k = some l)
    (hc : l.condition = some c) (hblock : g.contains c.block = true)
    (hst : summary.state? l.header = some st)
    (h : analyze g forest summary maxPaths k = .ok a) (ha : a.verdict = .terminates) :
    ∃ r, replay g ⟨k, l, c⟩ maxPaths st.restart = .ok r ∧ r.Convincing := by
  unfold analyze LoopForest.get at h
  rw [hl] at h
  obtain ⟨_, hloop, h⟩ := bind_eq_ok_iff.1 h
  cases hloop
  rw [hc] at h
  dsimp only at h
  split at h
  · cases h
    cases ha
  · rename_i start hstart
    have hrestart : start = st.restart := by
      unfold startState? at hstart
      split at hstart
      · rw [hst] at hstart
        exact (Option.some.inj hstart).symm
      · cases hstart
    subst hrestart
    rw [if_pos hblock] at h
    obtain ⟨r, hr, h⟩ := bind_eq_ok_iff.1 h
    cases h
    exact ⟨r, hr, convincing_of_conclude ha⟩

/-- A replay of a loop that was entered is the analysis of it. -/
theorem analyze_of_replay {r : Replay} (hl : forest.get? k = some l) (hc : l.condition = some c)
    (hblock : g.contains c.block = true) (hstart : startState? g summary l = some st)
    (hr : replay g ⟨k, l, c⟩ maxPaths st = .ok r) :
    analyze g forest summary maxPaths k =
      .ok { verdict := .conclude r.paths r.truncated, replay := r } := by
  unfold analyze LoopForest.get
  rw [hl]
  refine bind_eq_ok_iff.2 ⟨l, rfl, ?_⟩
  rw [hc]
  dsimp only
  rw [hstart]
  dsimp only
  rw [if_pos hblock, hr]
  rfl

/-! ## The start of an iteration -/

/-- The state is described by what is known where the loop is entered.  Versions leave room
for two iterations, and no value was saved from an operand of the exit test whose movement
is still remembered. -/
structure Starts (g : FlowGraph) (l : Loop) (c : LoopCondition) (st : Path) (s₀ : State) :
    Prop where
  arraysBuilt : st.ArraysBuilt
  describes : st.Describes s₀
  versions : ∃ n, n + 2 * Loop.instructionCount g l < 2 ^ 64 ∧ ∀ name v,
    st.var? name = some v ∨ .value (some name) v ∈ st.stack.entries → v.version.toNat ≤ n
  saved : ∀ name v, .value (some name) v ∈ st.stack.entries → Watched c name →
    v.trend = .unpredictable

theorem var?_restart (st : Path) (name : String) :
    st.restart.var? name = (st.var? name).map fun v => { v with trend := .untouched } := by
  unfold Path.restart Path.var?
  rw [Scopes.get?_mapAll, Scopes.get?_flatten]

/-- **The replay starts** on a path that follows. -/
theorem Starts.follows (h : Starts g l c st s₀) :
    ∃ n, n + 2 * Loop.instructionCount g l < 2 ^ 64 ∧ Follows g l c s₀ n st.restart s₀ := by
  obtain ⟨n, hn, hversions⟩ := h.versions
  have hadvances : Advances st.vars s₀.vars st.restart.vars s₀.vars := fun name v m hv hm =>
    ⟨{ v with trend := .untouched }, m, (var?_restart st name).trans (by rw [Path.var?, hv]; rfl),
      hm, .inl ⟨rfl, rfl⟩⟩
  refine ⟨n, hn, h.arraysBuilt, ?_, ?_⟩
  · rw [State.blend_self]
    refine ⟨fun name => ?_, h.describes.arrays,
      h.describes.stack.imp fun _ _ => StackEntry.Describes.advance hadvances⟩
    rw [var?_restart]
    cases hm : s₀.vars name with
    | none =>
        rw [h.describes.var?_eq_none hm]
        exact .none
    | some m =>
        obtain ⟨v, hv, hd⟩ := h.describes.of_held hm
        rw [hv]
        have hd' := hd.advance hadvances
        exact .some ⟨hd'.type, hd'.value, hd'.relations⟩
  · rw [State.blend_self]
    refine ⟨fun name v m hv hm => ?_, ?_⟩
    · rw [var?_restart] at hv
      obtain ⟨w, hw, rfl⟩ := Option.map_eq_some_iff.1 hv
      obtain ⟨m', hm', hd⟩ := h.describes.of_var? hw
      cases hm.symm.trans hm'
      refine ⟨hversions name w (.inl hw), fun _ => ?_⟩
      rw [hm]
      exact Trend.right_of_eq rfl (RelOp.fold_eq_self (Value.isNaN_of_contains hd.value))
    · have hmem := (List.forall₂_and_left (p := (· ∈ st.stack.entries)) _ _).2
        ⟨fun _ he => he, h.describes.stack⟩
      refine hmem.imp fun entry slot hslot => ?_
      unfold StackEntry.Records
      split
      · exact ⟨hversions _ _ (.inr hslot.1), fun hw => by
          rw [h.saved _ _ hslot.1 hw]
          exact Trend.right_unpredictable⟩
      · trivial

/-- **Progress.**  If the verdict on a loop without inner loops is that it terminates, every
iteration after which the loop goes on makes progress, provided that the replay can follow
it: it starts in a state described by what is known where the loop is entered, and all that
happens on its way is regular. -/
theorem terminates_progress {a : LoopAnalysis} (henv : env.Typed)
    (hforest : LoopForest.ofGraph g = .ok forest) (hl : forest.get? k = some l)
    (hc : l.condition = some c) (hown : ∀ m ∈ l.members, m.owner = k)
    (hanalysis : analyze g forest summary maxPaths k = .ok a) (ha : a.verdict = .terminates)
    (hst : summary.state? l.header = some st) (hstart : Starts g l c st s₀)
    (hiter : Iteration env g l c s₀ events e) (hreg : ∀ ev ∈ events, ev.Regular env g l c) :
    Closer c s₀ e := by
  obtain ⟨hheader, hcondition⟩ := LoopForest.natural_of_ofGraph hforest hl
  have hbranch : Branches g l c := .of_condition? (hcondition.symm.trans hc) rfl
  have hinner : ∀ id, (Subject.mk k l c).isInner id = false := by
    intro id
    unfold Subject.isInner Loop.member?
    cases hfind : l.members.find? (·.block == id) with
    | none => rfl
    | some m => simp [hown m (List.mem_of_find?_eq_some hfind)]
  have hblock : g.contains c.block = true := by
    obtain ⟨b, -, -, hb, -⟩ := hbranch
    simp [FlowGraph.contains, hb]
  obtain ⟨r, hreplay, hr⟩ := exists_replay_of_terminates hl hc hblock hst hanalysis ha
  obtain ⟨n, hn, hfollows⟩ := hstart.follows
  exact closer_of_replay henv hbranch hinner hheader (hstart.describes.ordered hstart.arraysBuilt)
    hfollows hn hreplay hr hiter hreg

end Verdict

/-! ## A loop with a call -/

/-- A loop that counts down from one, and calls a function in its body. -/
def countdown (callee : List Instruction) : FlowGraph where
  slots := #[
    some { name := "e", body := [.assign "i" (.literal (.number .one))], terminator := .jump 1 },
    some {
      name := "head"
      terminator := .branch ⟨.var "i", .ge, .literal (.number .zero)⟩ 2 4
      predecessors := [0, 3] },
    some {
      name := "body"
      body := [.evaluate "i" .sub (.var "i") (.literal (.number .one)), .pushState "back"]
      terminator := .jump 5
      predecessors := [1] },
    some { name := "back", terminator := .jump 1, predecessors := [5] },
    some { name := "done", predecessors := [1] },
    some {
      name := "f0"
      body := callee
      terminator := .ret none
      function := some 0
      predecessors := [2] }]
  functions := #[{ name := "f", entry := some 5, calls := [⟨2, 3, 0⟩] }]
  first := some 0
  last := some 4

/-- The loop goes on while `i` is not negative. -/
def countdownTest : LoopCondition := ⟨1, ⟨.var "i", .ge, .literal (.number .zero)⟩, true⟩

/-- The loop, as it is found. -/
def countdownLoop : Loop where
  header := 1
  tails := [3]
  body := .ofList 6 [1, 2, 3]
  members := [⟨1, "head", 0⟩, ⟨2, "body", 0⟩, ⟨3, "back", 0⟩]
  condition := some countdownTest
  function := none
  parent := none
  depth := 0

/-- What is known where the loop is entered: `i` is one. -/
def countdownPath (version : Version) : Path where
  vars := ⟨⟨[("i", ⟨.double, .number ⟨.one, .one⟩, true, .unpredictable, version, []⟩)]⟩, []⟩

/-- The state in which the loop is entered first. -/
def countdownState : State := ({} : State).bind "i" (some (.number .one))

theorem ofGraph_countdown (callee : List Instruction) :
    LoopForest.ofGraph (countdown callee) = .ok ⟨#[countdownLoop]⟩ := by cbv

theorem countdownPath_var? {name : String} (hname : name ≠ "i") (version : Version) :
    (countdownPath version).var? name = none := by
  simp [countdownPath, Path.var?, Scopes.get?, Table.get?, Table.find, Ne.symm hname]

theorem countdownPath_describes (version : Version) :
    (countdownPath version).Describes countdownState := by
  refine ⟨fun name => ?_, fun _ => .none, .nil⟩
  by_cases hname : name = "i"
  · subst hname
    exact .some ⟨rfl, rfl, by simp⟩
  · have hstate : countdownState.vars name = none := by
      simp [countdownState, State.bind, hname]
    rw [countdownPath_var? hname, hstate]
    exact .none

/-- The replay skips the call, and takes the loop for one that counts down. -/
theorem analyze_countdown (callee : List Instruction) {version : Version}
    {summary : SearchSummary} (hv : version = 1 ∨ version = 3)
    (hreached : summary.isReached 1 = true)
    (hstate : summary.state? 1 = some (countdownPath version)) :
    ∃ a, analyze (countdown callee) ⟨#[countdownLoop]⟩ summary defaultMaxPaths 0 = .ok a ∧
      a.verdict = .terminates := by
  have hstart : startState? (countdown callee) summary countdownLoop =
      some (countdownPath version).restart := by
    have hcontains : (countdown callee).contains 1 = true := rfl
    unfold startState?
    rw [show countdownLoop.header = 1 from rfl, hcontains, hreached, hstate]
    rfl
  have hreplay : (replay (countdown callee) ⟨0, countdownLoop, countdownTest⟩ defaultMaxPaths
      (countdownPath version).restart).map (fun r => LoopVerdict.conclude r.paths r.truncated) =
      .ok .terminates := by
    rcases hv with rfl | rfl
    · cbv
    · cbv
  obtain ⟨r, hr, hverdict⟩ := map_eq_ok_iff.1 hreplay
  exact ⟨_, analyze_of_replay rfl rfl rfl hstart hr, hverdict⟩

/-- The state in which the function is called first. -/
def countdownCall : State :=
  (countdownState.bind "i" (some (.number (Double.one.sub .one)))).push (.marker 3)

/-- The first iteration, with a function that only returns to it. -/
theorem iteration_countdown {callee : List Instruction} {s : State}
    (hcallee : steps zeros (countdown callee) 1 (.at 5 countdownCall) = .at 3 s)
    (hstack : s.stack = []) (hholds : s.holds countdownTest.continuation = .ok true) :
    Iteration zeros (countdown callee) countdownLoop countdownTest countdownState
      [.entered 1 countdownState, .entered 2 countdownState, .called 0 none countdownCall s,
        .entered 3 s, .entered 1 s] s := by
  have hcall : Move zeros (countdown callee) 2 countdownState
      [.entered 2 countdownState, .called 0 none countdownCall s] 3 s := by
    have hmade : (countdown callee).callAt? 2 = some (0, ⟨2, 3, 0⟩) := rfl
    have hstep : step zeros (countdown callee) (.at 2 countdownState) = .at 5 countdownCall := rfl
    exact .call rfl hmade rfl hstep hcallee rfl hstack
  exact ⟨_, _, _, _, rfl, .leave rfl rfl rfl rfl, rfl, .pass (by decide) hcall rfl
    (.pass (by decide) (.leave rfl rfl rfl rfl) rfl (.arrive rfl rfl hholds))⟩

/-- The state in which a function returns that prints what is left. -/
def countdownReturn : State :=
  { countdownCall with stack := [], printed := [.number (Double.one.sub .one)] }

theorem countdownCall_ordered : countdownCall.Ordered := by
  refine ⟨fun name l hl => ?_, fun source l hl => ?_, fun name a ha => ?_⟩
  · simp only [countdownCall, countdownState, State.push, State.bind] at hl
    split at hl
    · cases hl
      rfl
    · cases hl
  · cases hl with
    | tail _ hl => cases hl
  · cases ha

/-- The test of the header is on numbers. -/
theorem regular_header (s : State) (callee : List Instruction) :
    (Event.entered 1 s).Regular zeros (countdown callee) countdownLoop countdownTest := by
  intro b hb
  cases hb
  refine ⟨trivial, fun test ht l hl => ?_⟩
  cases ht
  rcases hl with hl | hl
  · cases hl
  · cases hl
    rfl

/-- The body counts down without rounding. -/
theorem regular_body (callee : List Instruction) :
    (Event.entered 2 countdownState).Regular zeros (countdown callee) countdownLoop
      countdownTest := by
  intro b hb
  cases hb
  refine ⟨fun s' hs' => ?_, fun test ht => by cases ht⟩
  cases hs'
  refine ⟨⟨?_, ?_, ?_⟩, fun _ o l m r ho hl hm hr => ?_, trivial, fun s' hs' => ?_⟩
  · exact countdownCall_ordered.vars
  · exact fun _ _ hl => by cases hl
  · exact countdownCall_ordered.arrays
  · cases ho
    cases hl
    cases hm
    cases hr
    refine ⟨fun habsorbs => ?_, fun hreads => by cases hreads⟩
    cases habsorbs.2
  · cases hs'
    exact ⟨countdownCall_ordered, trivial, trivial, trivial⟩

theorem regular_countdown :
    ∀ ev ∈ [Event.entered 1 countdownState, .entered 2 countdownState,
      .called 0 none countdownCall countdownReturn, .entered 3 countdownReturn,
      .entered 1 countdownReturn],
      ev.Regular zeros (countdown [.print (.var "i")]) countdownLoop countdownTest := by
  have hcalled : (Event.called 0 none countdownCall countdownReturn).Regular zeros
      (countdown [.print (.var "i")]) countdownLoop countdownTest :=
    ⟨rfl, fun _ => by simp, fun _ _ => ⟨rfl, rfl⟩⟩
  have hback : (Event.entered 3 countdownReturn).Regular zeros (countdown [.print (.var "i")])
      countdownLoop countdownTest := by
    intro b hb
    cases hb
    exact ⟨trivial, fun test ht => by cases ht⟩
  simp only [List.forall_mem_cons]
  exact ⟨regular_header _ _, regular_body _, hcalled, hback, regular_header _ _, by simp⟩

theorem starts_countdown (callee : List Instruction) :
    Starts (countdown callee) countdownLoop countdownTest (countdownPath 1) countdownState where
  arraysBuilt _ _ ha := by cases ha
  describes := countdownPath_describes 1
  versions := by
    have hcount : Loop.instructionCount (countdown callee) countdownLoop = 2 := rfl
    refine ⟨1, by rw [hcount]; decide, fun name v hv => ?_⟩
    rcases hv with hv | hv
    · by_cases hname : name = "i"
      · subst hname
        cases hv
        decide
      · rw [countdownPath_var? hname] at hv
        cases hv
    · cases hv
  saved _ _ hv := by cases hv

/-- **A loop that makes progress**, with a function that prints what is left. -/
theorem terminates_progress_countdown :
    ∃ summary a events e, zeros.Typed ∧
      LoopForest.ofGraph (countdown [.print (.var "i")]) = .ok ⟨#[countdownLoop]⟩ ∧
      (∀ m ∈ countdownLoop.members, m.owner = 0) ∧
      analyze (countdown [.print (.var "i")]) ⟨#[countdownLoop]⟩ summary defaultMaxPaths 0 =
        .ok a ∧ a.verdict = .terminates ∧
      summary.state? countdownLoop.header = some (countdownPath 1) ∧
      Starts (countdown [.print (.var "i")]) countdownLoop countdownTest (countdownPath 1)
        countdownState ∧
      Iteration zeros (countdown [.print (.var "i")]) countdownLoop countdownTest countdownState
        events e ∧
      (∀ ev ∈ events, ev.Regular zeros (countdown [.print (.var "i")]) countdownLoop
        countdownTest) ∧
      Closer countdownTest countdownState e := by
  let summary : SearchSummary := { results := ⟨[(1, ⟨1, countdownPath 1⟩)]⟩ }
  have hstate : summary.state? 1 = some (countdownPath 1) := rfl
  obtain ⟨a, ha, hverdict⟩ := analyze_countdown [.print (.var "i")] (.inl rfl) rfl hstate
  have hiter : Iteration zeros (countdown [.print (.var "i")]) countdownLoop countdownTest
      countdownState _ countdownReturn := iteration_countdown rfl rfl rfl
  exact ⟨summary, a, _, _, zeros_typed, ofGraph_countdown _, by decide, ha, hverdict, hstate,
    starts_countdown _, hiter, regular_countdown,
    terminates_progress zeros_typed (ofGraph_countdown _) rfl rfl (by decide) ha hverdict hstate
      (starts_countdown _) hiter regular_countdown⟩

/-- The search knows that the function sets the variable back. -/
theorem search_countdown_one :
    ∃ summary, (searchFrom (countdown [.assign "i" (.literal (.number .one))])
        Settings.analysis.search .empty).1 = .ok summary ∧ summary.truncated = false ∧
      summary.isReached 1 = true ∧ summary.state? 1 = some (countdownPath 3) := by
  have hfound : (searchFrom (countdown [.assign "i" (.literal (.number .one))])
      Settings.analysis.search .empty).1.map
        (fun s => (s.truncated, s.isReached 1, s.state? 1)) =
      .ok (false, true, some (countdownPath 3)) := by cbv
  obtain ⟨summary, hsearch, hfound⟩ := map_eq_ok_iff.1 hfound
  obtain ⟨htruncated, hfound⟩ := Prod.mk.inj hfound
  obtain ⟨hreached, hstate⟩ := Prod.mk.inj hfound
  exact ⟨summary, hsearch, htruncated, hreached, hstate⟩

/-- **A loop that never ends.**  The function undoes what the body does, and the search knows
that; but the replay skips the call. -/
theorem terminates_diverging :
    ∃ summary a events e,
      (countdown [.assign "i" (.literal (.number .one))]).validate = .ok () ∧
      LoopForest.ofGraph (countdown [.assign "i" (.literal (.number .one))]) =
        .ok ⟨#[countdownLoop]⟩ ∧
      (∀ m ∈ countdownLoop.members, m.owner = 0) ∧
      (searchFrom (countdown [.assign "i" (.literal (.number .one))])
        Settings.analysis.search .empty).1 = .ok summary ∧ summary.truncated = false ∧
      summary.state? countdownLoop.header = some (countdownPath 3) ∧
      analyze (countdown [.assign "i" (.literal (.number .one))]) ⟨#[countdownLoop]⟩ summary
        defaultMaxPaths 0 = .ok a ∧ a.verdict = .terminates ∧
      after zeros (countdown [.assign "i" (.literal (.number .one))]) 1 =
        .at countdownLoop.header countdownState ∧
      (countdownPath 3).Describes countdownState ∧
      Iteration zeros (countdown [.assign "i" (.literal (.number .one))]) countdownLoop
        countdownTest countdownState events e ∧
      ¬ Closer countdownTest countdownState e := by
  obtain ⟨summary, hsearch, htruncated, hreached, hstate⟩ := search_countdown_one
  obtain ⟨a, ha, hverdict⟩ := analyze_countdown _ (.inr rfl) hreached hstate
  refine ⟨summary, a, _, _, by cbv, ofGraph_countdown _, by decide, hsearch, htruncated, hstate, ha,
    hverdict, rfl, countdownPath_describes 3, iteration_countdown rfl rfl rfl, ?_⟩
  rintro ⟨l, m, l', m', hl, hm, hl', hm', -, -, hmoved⟩
  cases hl
  cases hm
  cases hl'
  cases hm'
  rcases hmoved with h | h
  · cases h
  · cases h

end Termination
end FlowVerifier
