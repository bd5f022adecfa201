import FlowVerifier.Proofs.Symbolic.Continuing
import FlowVerifier.Proofs.Symbolic.Entering

/-!
# Paths that carry a state

A path *carries* a state of a running program if it describes the state and also knows which
variables the values on the stack come from, and if its versions are far from running over.
Then it goes wherever the program goes.

* `Carries.executeAll`: through the body of a block.
* `Carries.runBlock`: out of the block, on one of the sides that the search follows.
* `Carries.enter`: into a block, whatever the entry finds on record.

No NaN may arise on the way, and no test may ask for being different from NaN.
-/

namespace FlowVerifier

open Run

/-! ## States and stacks -/

namespace Run

variable {env : Environment} {resolve : String → Option BlockId} {s s' : State} {i : Instruction}

/-- The variable that a slot was pushed from. -/
def Entry.source? : Entry → Option String
  | value source _ => source
  | marker _ => none

/-- No NaN arises while the instructions run. -/
def OrderedAlong (env : Environment) (resolve : String → Option BlockId) :
    List Instruction → State → Prop
  | [], _ => True
  | i :: rest, s => ∀ s', s.exec env resolve i = .ok s' →
      s'.Ordered ∧ OrderedAlong env resolve rest s'

theorem stack_of_write (henv : env.Typed) {target : String} {l : Literal}
    (h : s.write env target l = .ok s') : s'.stack = s.stack :=
  (Symbolic.write_eq_ok henv h).1 ▸ rfl

/-- The program changes its stack as the instruction says. -/
theorem sources_of_exec (henv : env.Typed) (h : s.exec env resolve i = .ok s') :
    s'.stack.map Entry.source? = i.sources (s.stack.map Entry.source?) := by
  cases i with
  | declare name type =>
      cases h
      rfl
  | assign target o =>
      obtain ⟨l, -, h⟩ := bind_eq_ok_iff.1 h
      rw [stack_of_write henv h]
      rfl
  | evaluate target op lhs rhs =>
      obtain ⟨l, -, h⟩ := bind_eq_ok_iff.1 h
      obtain ⟨m, -, h⟩ := bind_eq_ok_iff.1 h
      obtain ⟨r, -, h⟩ := bind_eq_ok_iff.1 h
      rw [stack_of_write henv h]
      rfl
  | print o =>
      obtain ⟨l, -, h⟩ := bind_eq_ok_iff.1 h
      cases h
      rfl
  | input target =>
      simp only [State.exec, State.receive] at h
      split at h
      · split at h
        · cases h
        · cases h
          rfl
      · cases h
  | push o =>
      obtain ⟨e, he, h⟩ := bind_eq_ok_iff.1 h
      obtain ⟨l, -, he⟩ := bind_eq_ok_iff.1 he
      cases he
      cases h
      rw [henv.checked]
      rfl
  | pushState block =>
      simp only [State.exec] at h
      split at h
      · cases h
        rfl
      · cases h
  | pop target =>
      simp only [State.exec, State.pop] at h
      split at h
      · cases h
      · cases h
      · rename_i source l rest hstack
        rw [hstack]
        split at h
        · cases h
          rfl
        · split at h
          · cases h
            rfl
          · rw [stack_of_write henv h]
            rfl
  | declareArray name type size => exact congrArg _ (Symbolic.vars_of_declareArray h).2
  | readArray target array index =>
      obtain ⟨d, -, h⟩ := bind_eq_ok_iff.1 h
      obtain ⟨c, -, h⟩ := bind_eq_ok_iff.1 h
      obtain ⟨k, -, h⟩ := bind_eq_ok_iff.1 h
      split at h
      · rw [stack_of_write henv h]
        rfl
      · cases h
  | writeArray array index value => exact congrArg _ (Symbolic.vars_of_writeArray h).2
  | jumpIf test block => cases h
  | jump block => cases h
  | ret value => cases h

end Run

namespace Symbolic

open Exec

variable {env : Environment} {resolve : String → Option BlockId} {g : FlowGraph} {p q : Path}
  {s s' e : State} {n k : Nat} {i : Instruction} {b : Block} {test : Comparison}

/-- What an execution yields, it also ensures. -/
theorem Exec.Yields.and_ensures {α : Type} {x : Exec α} {post other : α → Path → Prop}
    (hx : Yields x p post) (he : Ensures x p other) :
    Yields x p fun a q => post a q ∧ other a q := by
  intro ws
  obtain ⟨a, q, ws', hrun, ha⟩ := hx ws
  exact ⟨a, q, ws', hrun, ha, he ws a _ hrun⟩

/-- Two stacks come from the same variables slot by slot. -/
theorem Stack.sources_eq_iff {stack : Stack} {entries : List Entry} :
    stack.sources = entries.map Entry.source? ↔
      List.Forall₂ (fun slot entry => slot.source? = Entry.source? entry)
        stack.entries entries := by
  rw [Stack.sources, ← List.forall₂_eq_eq_eq, List.forall₂_map_left_iff,
    List.forall₂_map_right_iff]

/-- Widening leaves a slot its variable. -/
theorem StackEntry.source?_widen (o slot : StackEntry) : (o.widen slot).source? = slot.source? := by
  unfold StackEntry.widen
  split
  · split <;> rfl
  · rfl

namespace Path

theorem namedIn_widenFrom (p : Path) (old : Snapshot) : p.NamedIn (p.widenFrom old) := by
  refine ⟨fun x hx => ?_, fun x hx => ?_⟩
  · rw [var?_widenFrom, Option.isSome_map]
    exact hx
  · show ((p.arrays.map _).get? x).isSome
    rw [Table.get?_map, Option.isSome_map]
    exact hx

/-- An entry forgets no name. -/
theorem namedIn_enter (p : Path) (block : BlockId) (maxWidenings : Nat) :
    p.NamedIn (p.enter block maxWidenings).2 := by
  rcases p.enter_cases block maxWidenings with heq | ⟨r, -, heq⟩ | ⟨record, -, -, heq⟩
  · rw [heq]
    exact ⟨fun _ hx => hx, fun _ hx => hx⟩
  · rw [heq]
    exact ⟨fun _ hx => hx, fun _ hx => hx⟩
  · have hnamed := namedIn_widenFrom p record.snapshot
    rw [heq]
    exact ⟨hnamed.vars, hnamed.arrays⟩

/-- Versions do not depend on the state. -/
theorem Records.transfer {origin : String → Option Literal}
    (h : p.Records (fun _ => False) origin n s) (hd : p.Describes s) (hd' : p.Describes s') :
    p.Records (fun _ => False) origin n s' := by
  refine ⟨fun name v l hv _ => ?_, ?_⟩
  · obtain ⟨l₀, hl₀, -⟩ := hd.of_var? hv
    exact ⟨(h.scalars name v l₀ hv hl₀).version, False.elim⟩
  · have hcounted := h.stack
    have hslots := hd.stack
    have hslots' := hd'.stack
    generalize p.stack.entries = slots, s.stack = entries, s'.stack = entries'
      at hcounted hslots hslots' ⊢
    induction hcounted generalizing entries' with
    | nil =>
        cases hslots'
        exact .nil
    | @cons slot entry _ _ hhead _ ih =>
        cases hslots with
        | cons hslot hrest =>
            cases hslots' with
            | @cons _ entry' _ _ hslot' hrest' =>
                refine .cons ?_ (ih _ hrest hrest')
                cases slot with
                | marker c => trivial
                | value source v =>
                    cases source with
                    | none => trivial
                    | some name =>
                        cases entry with
                        | marker c => exact hslot.elim
                        | value source₀ l₀ =>
                            cases entry' with
                            | marker c => exact hslot'.elim
                            | value source' l =>
                                have hversion := Variable.Records.version hhead
                                exact Variable.Records.mk hversion False.elim

/-- The path describes the state, knows where its stack comes from, and no version of a variable
or of a value saved from one is above `n`. -/
structure Carries (n : Nat) (p : Path) (s : State) : Prop where
  arraysBuilt : p.ArraysBuilt
  recordsBuilt : p.RecordsBuilt
  describes : p.Describes s
  counted : p.Records (fun _ => False) (fun _ => none) n s
  sources : p.stack.sources = s.stack.map Entry.source?

namespace Carries

theorem mono (h : p.Carries n s) (hk : n ≤ k) : p.Carries k s :=
  ⟨h.arraysBuilt, h.recordsBuilt, h.describes, h.counted.mono hk, h.sources⟩

theorem start : Path.start.Carries 0 {} where
  arraysBuilt _ _ h := absurd h (by simp [Path.start])
  recordsBuilt _ _ h := absurd h (by simp [Path.start])
  describes := ⟨fun _ => .none, fun _ => .none, .nil⟩
  counted := ⟨fun _ _ _ _ hl => absurd hl (by simp), .nil⟩
  sources := rfl

/-! ## The body of a block -/

/-- A value that goes back into the variable it was pushed from is known to come from there. -/
theorem canRestore (h : p.Carries n s) (name : String) : p.CanRestore s name := by
  intro l rest hstack
  have hsources := h.sources
  have hslots := h.describes.stack
  rw [hstack] at hsources hslots
  cases hp : p.stack.entries with
  | nil => rw [hp] at hslots; cases hslots
  | cons slot below =>
      rw [hp] at hslots
      cases hslots with
      | cons hslot _ =>
          cases slot with
          | marker block => exact hslot.elim
          | value source v =>
              rw [Stack.sources, hp] at hsources
              obtain rfl : source = some name := (List.cons.inj hsources).1
              exact .inl ⟨v, by rw [Stack.top?, hp]; rfl⟩

theorem execute (henv : env.Typed) (h : p.Carries n s) (hn : n + 1 < 2 ^ 64)
    (hs' : s.exec env resolve i = .ok s') (ho : s'.Ordered) (node : String) :
    Yields (Symbolic.execute resolve node i) p fun _ q =>
      q.Carries (n + 1) s' ∧ p.Continues q := by
  have hsteady : i.Steady (fun _ => False) s s' := by
    cases i with
    | declare name type => exact not_false
    | evaluate target op lhs rhs => exact False.elim
    | _ => trivial
  have hanswers : Answers (Symbolic.execute resolve node i) p s' :=
    answers_execute henv h.arraysBuilt h.describes hs'
      (fun x _ => h.counted.canAdvance h.describes hn x) (fun x _ => h.canRestore x)
  intro ws
  obtain ⟨_, q, ws', hrun, hbuilt, hdesc⟩ := hanswers ws
  obtain ⟨hcontinues, hsources, -⟩ := ensures_execute resolve node i p ws () _ hrun
  have hcounted := execute_records henv h.describes h.counted hn (by simp) hs' ho hsteady ws ()
    _ hrun
  refine ⟨(), q, ws', hrun, ⟨hbuilt, ?_, hdesc ho, hcounted, ?_⟩, hcontinues⟩
  · intro key r hget
    exact h.recordsBuilt key r (hcontinues.visits ▸ hget)
  · rw [sources_of_exec henv hs', ← h.sources]
    exact hsources

/-- **The body of a block** makes no mistake on the path. -/
theorem executeAll (henv : env.Typed) (node : String) {body : List Instruction}
    (h : p.Carries n s) (hn : n + body.length < 2 ^ 64)
    (he : s.execAll env resolve body = .ok e) (ho : OrderedAlong env resolve body s) :
    Yields (Symbolic.executeAll resolve node body) p fun _ q =>
      q.Carries (n + body.length) e ∧ p.Continues q := by
  induction body generalizing n p s with
  | nil =>
      cases he
      exact .pure ⟨h, .refl p⟩
  | cons i rest ih =>
      rw [State.execAll] at he
      split at he
      · rename_i s' hs'
        obtain ⟨hs'o, hrest⟩ := ho s' hs'
        rw [List.length_cons] at hn ⊢
        rw [executeAll_cons]
        refine (h.execute henv (by omega) hs' hs'o node).bind ?_
        rintro - q ⟨hq, hcontinues⟩
        refine (ih hq (by omega) he hrest).imp ?_
        exact fun _ _ hlast => ⟨hlast.1.mono (by omega), hcontinues.trans hlast.2⟩
      · cases he

/-! ## Leaving a block -/

/-- After a test the path still carries the states that it describes. -/
theorem narrows (h : p.Carries n s) (hq : p.Narrows q) (hd : q.Describes s) : q.Carries n s where
  arraysBuilt name a ha := h.arraysBuilt name a (hq.arrays ▸ ha)
  recordsBuilt key r hget := h.recordsBuilt key r (hq.visits ▸ hget)
  describes := hd
  counted := by
    refine ⟨fun name v l hv hl => ?_, by rw [hq.stack]; exact h.counted.stack⟩
    obtain ⟨w, hw, -⟩ := h.describes.of_held hl
    have hversion := hq.versions name
    rw [hv, hw, Option.map_some, Option.map_some, Option.some.injEq] at hversion
    exact ⟨hversion ▸ (h.counted.scalars name w l hw hl).version, False.elim⟩
  sources := by rw [hq.stack]; exact h.sources

/-- **A branch** is followed to the side that the program takes. -/
theorem takeBranch (h : p.Carries n s) (ho : test.Orderly) {outcome : Bool}
    (hholds : s.holds test = .ok outcome) (node : String) (onTrue onFalse : BlockId) :
    Yields (Symbolic.takeBranch node test onTrue onFalse) p fun sides _ =>
      ∃ q, (if outcome then onTrue else onFalse, q) ∈ sides ∧ q.Carries n s := by
  refine ((yields_takeBranch node onTrue onFalse h.describes ho hholds).and_ensures
    (ensures_takeBranch node test onTrue onFalse p)).imp ?_
  rintro sides - ⟨⟨q, hq, hd⟩, hsides⟩
  exact ⟨q, hq, h.narrows (hsides _ hq).2 hd⟩

/-- The innermost frame is dropped on the path as in the program. -/
theorem unwind (h : p.Carries n s) {site : BlockId} {rest : List Entry}
    (hu : State.unwind? s.stack = some (site, rest)) :
    ∃ below, p.stack.unwind? = some (site, below) ∧
      ({ p with stack := below } : Path).Carries n { s with stack := rest } := by
  obtain ⟨below, hunwind, hdescribes, hcounted⟩ :=
    unwind?_of_forall₂ hu h.describes.stack h.counted.stack
  obtain ⟨below', hunwind', -, hsources⟩ :=
    unwind?_of_forall₂ hu h.describes.stack (Stack.sources_eq_iff.1 h.sources)
  obtain rfl : below = below' := by simpa [hunwind] using hunwind'
  exact ⟨⟨below⟩, hunwind, h.arraysBuilt, h.recordsBuilt,
    ⟨h.describes.scalars, h.describes.arrays, hdescribes⟩, ⟨h.counted.scalars, hcounted⟩,
    Stack.sources_eq_iff.2 hsources⟩

/-- A value that comes from no variable is pushed. -/
theorem pushValue (h : p.Carries n s) {v : Value} {l : Literal} (hv : v.Allows l)
    (hl : l.isNaN = false) :
    ({ p with stack := p.stack.pushValue v } : Path).Carries n (s.push (.value none l)) where
  arraysBuilt := h.arraysBuilt
  recordsBuilt := h.recordsBuilt
  describes := ⟨h.describes.scalars, h.describes.arrays, .cons
    ⟨hv.type, hv.contains hl, fun _ hr => absurd hr (by simp [Variable.ofValue])⟩
    h.describes.stack⟩
  counted := h.counted.push trivial
  sources := congrArg (none :: ·) h.sources

/-- **A return** goes where the program goes, with the value that it returns. -/
theorem takeReturn (h : p.Carries n s) {value : Option Operand}
    (hleave : leaveByReturn s value = .at k s') (ho : s'.Ordered) (node : String) :
    Yields (Symbolic.takeReturn node value) p fun sides _ =>
      ∃ q, (k, q) ∈ sides ∧ q.Carries n s' := by
  unfold leaveByReturn at hleave
  split at hleave
  · cases hleave
  · rename_i result hresult
    split at hleave
    · cases hleave
    · rename_i site rest hu
      cases hleave
      obtain ⟨below, hunwind, hbelow⟩ := h.unwind hu
      have hreturn : ∀ r : Option Value, Option.Rel Value.Allows r result →
          Yields (Symbolic.returnToCaller r (.returnWithoutMarker node)) p fun site' q =>
            site' = k ∧ q.Carries n
              { s with stack := (result.map (Entry.value none)).toList ++ rest } := by
        intro r hr
        refine Yields.path.bind ?_
        rintro _ p ⟨rfl, rfl⟩
        rw [hunwind]
        refine (Yields.modifyPath _).bind ?_
        rintro - _ rfl
        cases hr with
        | none => exact .pure ⟨rfl, hbelow⟩
        | @some v l hv =>
            exact .pure ⟨rfl, hbelow.pushValue hv (ho.stack none l (List.mem_cons_self ..))⟩
      have hvalue : Yields (value.mapM operand) p fun r q =>
          Option.Rel Value.Allows r result ∧ q = p := by
        cases value with
        | none =>
            cases hresult
            exact .pure ⟨.none, rfl⟩
        | some o =>
            obtain ⟨l, hl, hresult⟩ := bind_eq_ok_iff.1 hresult
            cases hresult
            refine (yields_operand h.describes hl).bind ?_
            rintro v p ⟨hv, rfl⟩
            exact .pure ⟨.some hv, rfl⟩
      refine hvalue.bind ?_
      rintro r p ⟨hr, rfl⟩
      refine (hreturn r hr).bind ?_
      rintro _ q ⟨rfl, hq⟩
      refine Yields.path.bind ?_
      rintro _ q ⟨rfl, rfl⟩
      exact .pure ⟨q, List.mem_singleton_self _, hq⟩

/-- **A block is left** to where the program goes, on one of the ways that the search follows. -/
theorem runBlock (henv : env.Typed) (h : p.Carries n s) (hn : n + b.body.length < 2 ^ 64)
    (hrun : Run.runBlock env g.idOf? b s = .at k s')
    (hbody : OrderedAlong env g.idOf? b.body s) (ho : s'.Ordered)
    (htest : ∀ test, b.test? = some test → test.Orderly) :
    Yields (Symbolic.runBlock g b) p fun sides _ =>
      ∃ q, (k, q) ∈ sides ∧ q.Carries (n + b.body.length) s' := by
  unfold Run.runBlock at hrun
  split at hrun
  · split at hrun
    · cases hrun
    · rename_i e he
      refine (h.executeAll henv b.name hn he hbody).bind ?_
      rintro - q ⟨hq, -⟩
      cases ht : b.terminator with
      | finish =>
          rw [ht] at hrun
          cases hrun
      | jump target =>
          rw [ht] at hrun
          cases hrun
          refine Yields.path.bind ?_
          rintro _ q ⟨rfl, rfl⟩
          exact .pure ⟨q, List.mem_singleton_self _, hq⟩
      | branch test onTrue onFalse =>
          have horderly := htest test (by rw [Block.test?, ht])
          rw [ht, leave] at hrun
          split at hrun
          · cases hrun
          · rename_i hholds
            cases hrun
            exact hq.takeBranch horderly hholds b.name _ _
          · rename_i hholds
            cases hrun
            exact hq.takeBranch horderly hholds b.name _ _
      | ret value =>
          rw [ht] at hrun
          exact hq.takeReturn hrun ho b.name
  · cases hrun

/-! ## Entering a block -/

/-- Widening advances a version by one at most, and none of a saved value. -/
theorem widenFrom_counted (h : p.Carries n s) (hn : n + 1 < 2 ^ 64) (old : Snapshot) :
    (p.widenFrom old).Records (fun _ => False) (fun _ => none) (n + 1) s := by
  refine ⟨fun name v l hv hl => ⟨?_, False.elim⟩, ?_⟩
  · rw [var?_widenFrom] at hv
    obtain ⟨w, hw, rfl⟩ := Option.map_eq_some_iff.1 hv
    have hle := (h.counted.scalars name w l hw hl).version
    rcases Tracked.widened_cases old.vars name w with ⟨hversion, -⟩ | ⟨hversion, -⟩
    · rw [hversion]
      omega
    · rw [hversion, UInt64.toNat_add, UInt64.toNat_one]
      omega
  · refine Stack.forall₂_widenFrame ?_ (h.counted.mono (Nat.le_succ n)).stack old.stack
    intro o slot entry hr
    unfold StackEntry.widen
    split
    · rename_i v source w
      split
      · cases source with
        | none => trivial
        | some name =>
            cases entry with
            | marker block => trivial
            | value _ l =>
                have hversion := Variable.Records.version hr
                exact Variable.Records.mk hversion False.elim
      · exact hr
    · exact hr

theorem widenFrom_sources (h : p.Carries n s) (old : Snapshot) :
    (p.widenFrom old).stack.sources = s.stack.map Entry.source? := by
  refine Stack.sources_eq_iff.2 (Stack.forall₂_widenFrame ?_ (Stack.sources_eq_iff.1 h.sources) _)
  exact fun o slot entry hs => (StackEntry.source?_widen o slot).trans hs

/-- **A block is entered** without losing a state, whatever the entry finds on record. -/
theorem enter (h : p.Carries n s) (hn : n + 1 < 2 ^ 64) (block : BlockId) (maxWidenings : Nat) :
    (p.enter block maxWidenings).2.Carries (n + 1) s := by
  obtain ⟨harrays, hrecords, hdescribes⟩ := h.describes.enter block maxWidenings h.arraysBuilt
    h.recordsBuilt fun name _ _ _ _ _ => h.counted.canAdvance h.describes hn name
  have hmono := h.counted.mono (Nat.le_succ n)
  rcases p.enter_cases block maxWidenings with heq | ⟨r, -, heq⟩ | ⟨record, -, -, heq⟩
  · rw [heq] at harrays hrecords hdescribes ⊢
    exact ⟨harrays, hrecords, hdescribes, ⟨hmono.scalars, hmono.stack⟩, h.sources⟩
  · rw [heq] at harrays hrecords hdescribes ⊢
    exact ⟨harrays, hrecords, hdescribes, ⟨hmono.scalars, hmono.stack⟩, h.sources⟩
  · have hwide := h.widenFrom_counted hn record.snapshot
    rw [heq] at harrays hrecords hdescribes ⊢
    exact ⟨harrays, hrecords, hdescribes, ⟨hwide.scalars, hwide.stack⟩,
      h.widenFrom_sources record.snapshot⟩

end Carries
end Path
end Symbolic
end FlowVerifier
