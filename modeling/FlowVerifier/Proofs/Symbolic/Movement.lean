import FlowVerifier.Proofs.Symbolic.Transfer
import FlowVerifier.Proofs.Symbolic.Trends

/-!
# How paths record movement

A path that starts in a state notes for every variable how it has moved since.
`Path.Records` says that these notes are right for some *watched* variables: the trend
of each, and of each value that was saved from one, compares with the value the
variable had in the beginning.  It also counts writes, so that versions do not run over.

`execute_records` says that an instruction keeps the notes right if it is `Steady`.
Three things a path does not see, and `Steady` excludes them for watched variables:

* a declaration, after which the variable counts as untouched;
* a step that is lost to rounding;
* a string put in front of another, which is taken for one put behind it.
-/

namespace FlowVerifier

open Run

/-! ## Steady instructions -/

/-- What the variable `target` is combined with by `target = lhs op rhs`, if that moves
it in one direction. -/
def Instruction.stepOperand? (target : String) (op : ArithOp) (lhs rhs : Operand) :
    Option Operand :=
  if lhs.reads target then some rhs
  else if rhs.reads target && (op == .add || op == .mul) then some lhs
  else none

/-- An instruction that leads from one state to another does nothing to a watched
variable that its trend does not show. -/
def Instruction.Steady (watched : String → Prop) (s s' : State) : Instruction → Prop
  | .declare name _ => ¬ watched name
  | .evaluate target op lhs rhs =>
    watched target → ∀ o l m r, stepOperand? target op lhs rhs = some o →
      s.vars target = some l → s.read o = .ok m → s'.vars target = some r →
      ¬ op.Absorbs l m r ∧ (lhs.reads target = false → r.type = .double)
  | _ => True

namespace Symbolic

open Exec

/-- Sums and products of numbers do not depend on the order. -/
theorem ArithOp.fold_comm {op : ArithOp} {l m r : Literal} (hop : op = .add ∨ op = .mul)
    (h : op.fold l m = .ok r) (hr : r.type = .double) : op.fold m l = .ok r := by
  cases l <;> cases m <;> rcases hop with rfl | rfl <;> cases h
  · exact congrArg (Except.ok ∘ Literal.number) (Double.add_comm ..)
  · exact congrArg (Except.ok ∘ Literal.number) (Double.mul_comm ..)
  · cases hr

/-! ## Executions that end well -/

namespace Exec

variable {α β : Type} {x : Exec α} {p : Path} {post : α → Path → Prop}

/-- Where the execution succeeds on the path, result and path are as described. -/
def Ensures (x : Exec α) (p : Path) (post : α → Path → Prop) : Prop :=
  ∀ ws a t, outcome x ⟨p, ws⟩ = (.ok a, t) → post a t.path

namespace Ensures

theorem pure {a : α} (h : post a p) : Ensures (pure a) p post := by
  intro ws b t hrun
  cases hrun
  exact h

theorem bind {f : α → Exec β} {middle : α → Path → Prop} {last : β → Path → Prop}
    (hx : Ensures x p middle) (hf : ∀ a q, middle a q → Ensures (f a) q last) :
    Ensures (x >>= f) p last := by
  intro ws b t hrun
  rw [outcome_bind] at hrun
  rcases hx' : outcome x ⟨p, ws⟩ with ⟨r, t'⟩
  rw [hx'] at hrun
  cases r with
  | error e => cases hrun
  | ok a => exact hf a t'.path (hx ws a t' hx') t'.warnings b t hrun

theorem imp {other : α → Path → Prop} (hx : Ensures x p post)
    (himp : ∀ a q, post a q → other a q) : Ensures x p other :=
  fun ws a t hrun => himp a t.path (hx ws a t hrun)

theorem path : Ensures path p fun a q => a = p ∧ q = p := by
  intro ws a t hrun
  cases hrun
  exact ⟨rfl, rfl⟩

theorem modifyPath (f : Path → Path) : Ensures (modifyPath f) p fun _ q => q = f p := by
  intro ws a t hrun
  cases hrun
  rfl

theorem warn (message : String) : Ensures (warn message) p fun _ q => q = p := by
  intro ws a t hrun
  cases hrun
  rfl

theorem throw (e : Error) : Ensures (throw e : Exec α) p post := by
  intro ws a t hrun
  cases hrun

theorem mistake (e : ProgramError) : Ensures (mistake e : Exec α) p post := throw _

theorem lift (r : Except ProgramError α) : Ensures (lift r) p fun a q => r = .ok a ∧ q = p := by
  cases r with
  | error e => exact mistake e
  | ok a => exact pure ⟨rfl, rfl⟩

/-- A warning that may be raised before an execution makes no difference. -/
theorem warn_if {c : Prop} [Decidable c] {message : String} (hx : Ensures x p post) :
    Ensures (if c then Exec.warn message >>= fun _ => x else x) p post := by
  split
  · refine (warn message).bind ?_
    rintro - q rfl
    exact hx
  · exact hx

end Ensures
end Exec

theorem ensures_operand {p : Path} (o : Operand) :
    Ensures (operand o) p fun v q => readOperand p o = .ok v ∧ q = p := by
  intro ws v t hrun
  obtain ⟨ws', ho⟩ := outcome_operand o ⟨p, ws⟩
  rw [hrun] at ho
  cases hv : readOperand p o with
  | error e =>
      rw [hv] at ho
      cases ho
  | ok w =>
      rw [hv] at ho
      cases ho
      exact ⟨rfl, rfl⟩

/-! ## Records -/

section Records

variable (watched : String → Prop) (origin : String → Option Literal) (n : Nat)

/-- The variable `name`, or a value saved from it, was written at most `n` times, and if
it is watched, it moved as it says to get to the value `l`. -/
structure Variable.Records (name : String) (v : Variable) (l : Literal) : Prop where
  version : v.version.toNat ≤ n
  trend : watched name → v.trend.Right (origin name) l

/-- A value that was saved from a variable has moved as it says. -/
def StackEntry.Records : StackEntry → Entry → Prop
  | .value (some name) v, .value _ l => v.Records watched origin n name l
  | _, _ => True

/-- All variables and saved values have moved as they say. -/
structure Path.Records (p : Path) (s : State) : Prop where
  scalars : ∀ name v l, p.var? name = some v → s.vars name = some l →
    v.Records watched origin n name l
  stack : List.Forall₂ (StackEntry.Records watched origin n) p.stack.entries s.stack

end Records

variable {watched : String → Prop} {origin : String → Option Literal} {n k : Nat}
  {p q : Path} {s s' : State} {l m : Literal} {name target : String} {v : Variable}

theorem Variable.Records.mono (h : v.Records watched origin n name l) (hk : n ≤ k) :
    v.Records watched origin k name l := ⟨h.version.trans hk, h.trend⟩

theorem StackEntry.Records.mono {e : StackEntry} {f : Entry} (hk : n ≤ k)
    (h : e.Records watched origin n f) : e.Records watched origin k f := by
  unfold StackEntry.Records at h ⊢
  split
  · exact Variable.Records.mono h hk
  · trivial

theorem Path.Records.mono (h : p.Records watched origin n s) (hk : n ≤ k) :
    p.Records watched origin k s :=
  ⟨fun name v l hv hl => (h.scalars name v l hv hl).mono hk,
    h.stack.imp fun _ _ => StackEntry.Records.mono hk⟩

/-- A version that is not too large has a successor. -/
theorem Path.Records.canAdvance (h : p.Records watched origin n s) (hd : p.Describes s)
    (hn : n + 1 < 2 ^ 64) (name : String) : p.CanAdvance name := by
  intro v hv hzero
  obtain ⟨l, hl, -⟩ := hd.of_var? hv
  have hle := (h.scalars name v l hv hl).version
  have hnext := congrArg UInt64.toNat hzero
  rw [UInt64.toNat_add, UInt64.toNat_one, UInt64.toNat_zero] at hnext
  omega

/-- The version of a variable that is bound anew. -/
theorem version_max_le {own old : Version} (ho : own.toNat ≤ n + 1) (hold : old.toNat ≤ n)
    (hn : n + 1 < 2 ^ 64) : (max own (old + 1)).toNat ≤ n + 1 := by
  have hnext : (old + 1).toNat ≤ n + 1 := by
    rw [UInt64.toNat_add, UInt64.toNat_one]
    omega
  show (if own ≤ old + 1 then old + 1 else own).toNat ≤ n + 1
  split <;> assumption

/-! ## Changes of paths and states -/

namespace Path.Records

/-- Only variables and the stack matter. -/
theorem congr (h : p.Records watched origin n s) (hvars : q.vars = p.vars)
    (hstack : q.stack = p.stack) (hheld : s'.vars = s.vars) (hentries : s'.stack = s.stack) :
    q.Records watched origin n s' := by
  refine ⟨fun name v l hv hl => h.scalars name v l ?_ (hheld ▸ hl), ?_⟩
  · rwa [Path.var?, ← hvars]
  · rw [hstack, hentries]
    exact h.stack

/-- A variable that is bound, or bound anew. -/
theorem bind (h : p.Records watched origin n s) (hv : v.Records watched origin n name l)
    (hvars : ∀ other, q.vars.get? other = if name = other then some v else p.vars.get? other)
    (hstack : q.stack = p.stack) : q.Records watched origin n (s.bind name (some l)) := by
  refine ⟨fun other w m hw hm => ?_, by rw [hstack]; exact h.stack⟩
  rw [Path.var?, hvars] at hw
  simp only [State.bind] at hm
  by_cases ho : name = other
  · subst ho
    rw [if_pos rfl] at hw hm
    cases hw
    cases hm
    exact hv
  · rw [if_neg ho] at hw
    rw [if_neg (Ne.symm ho)] at hm
    exact h.scalars other w m hw hm

/-- A variable that is declared or restored, with a version that was not seen before. -/
theorem insertVar (h : p.Records watched origin n s) (hd : p.Describes s) (hn : n + 1 < 2 ^ 64)
    (hv : v.Records watched origin (n + 1) name l) :
    (p.insertVar name v).Records watched origin (n + 1) (s.bind name (some l)) := by
  refine (h.mono (Nat.le_succ n)).bind (v := (p.vars.get? name).elim v fun old =>
    { v with version := max v.version (old.version + 1) }) ?_
    (fun other => Scopes.get?_insert ..) rfl
  cases hold : p.vars.get? name with
  | none => exact hv
  | some old =>
      obtain ⟨k, hk, -⟩ := hd.of_var? (show p.var? name = some old from hold)
      exact ⟨version_max_le hv.version (h.scalars name old k hold hk).version hn, hv.trend⟩

/-- A variable of which something else is known. -/
theorem modifyVar (h : p.Records watched origin n s) {f : Variable → Variable}
    (hf : ∀ v, (f v).version = v.version ∧ (f v).trend = v.trend) :
    (p.modifyVar name f).Records watched origin n s := by
  refine ⟨fun other w m hw hm => ?_, h.stack⟩
  rw [Path.modifyVar, Path.var?, Scopes.get?_modify] at hw
  split at hw
  · obtain ⟨v, hv, rfl⟩ := Option.map_eq_some_iff.1 hw
    have hrec := h.scalars other v m hv hm
    exact ⟨(hf v).1 ▸ hrec.version, (hf v).2 ▸ hrec.trend⟩
  · exact h.scalars other w m hw hm

theorem relate (h : p.Records watched origin n s) (a b : String) (op : RelOp) :
    ({ p with vars := p.vars.relate a op b } : Path).Records watched origin n s := by
  unfold Scopes.relate
  split
  · exact h
  · split
    · rename_i v w _ _
      have hleft : (p.modifyVar a (·.relate op b w.version)).Records watched origin n s :=
        h.modifyVar fun _ => ⟨rfl, rfl⟩
      exact hleft.modifyVar fun _ => ⟨rfl, rfl⟩
    · exact h

/-- What a test allows has moved in the same way. -/
theorem narrowedTo (h : p.Records watched origin n s) {test : Comparison} {left right : Value} :
    (relateOperands (narrowOperand (narrowOperand p test.lhs left) test.rhs right) test).Records
      watched origin n s := by
  have hnarrow : ∀ {p : Path} (o : Operand) (value : Value), p.Records watched origin n s →
      (narrowOperand p o value).Records watched origin n s := by
    intro p o value hp
    cases o with
    | literal k => exact hp
    | var x => exact hp.modifyVar fun _ => ⟨rfl, rfl⟩
  have hboth := hnarrow test.rhs right (hnarrow test.lhs left h)
  unfold relateOperands
  split
  · exact hboth.relate _ _ _
  · exact hboth

theorem push (h : p.Records watched origin n s) {e : StackEntry} {f : Entry}
    (he : e.Records watched origin n f) :
    ({ p with stack := p.stack.push e } : Path).Records watched origin n (s.push f) :=
  ⟨h.scalars, .cons he h.stack⟩

/-- The topmost slot, and what is below. -/
theorem of_top (h : p.Records watched origin n s) {f : Entry} {rest : List Entry}
    (hs : s.stack = f :: rest) :
    ∃ e, p.stack.top? = some e ∧ e.Records watched origin n f ∧
      ({ p with stack := p.stack.pop } : Path).Records watched origin n
        { s with stack := rest } := by
  have hstack := h.stack
  rw [hs] at hstack
  unfold Stack.top? Stack.pop
  cases hp : p.stack.entries with
  | nil => rw [hp] at hstack; cases hstack
  | cons e entries =>
      rw [hp] at hstack
      cases hstack with
      | cons hhead htail => exact ⟨e, rfl, hhead, h.scalars, htail⟩

end Path.Records

/-- Two things that are true slot by slot are so below the innermost marker. -/
theorem unwind?_of_forall₂ {vars : Scopes} {held : String → Option Literal}
    {entries : List StackEntry} {slots rest : List Entry} {site : BlockId}
    {R : StackEntry → Entry → Prop} (hu : State.unwind? slots = some (site, rest))
    (hd : List.Forall₂ (StackEntry.Describes vars held) entries slots)
    (hr : List.Forall₂ R entries slots) :
    ∃ below, Stack.unwind? ⟨entries⟩ = some (site, ⟨below⟩) ∧
      List.Forall₂ (StackEntry.Describes vars held) below rest ∧ List.Forall₂ R below rest := by
  induction hd with
  | nil => cases hu
  | @cons entry slot entries slots hslot hbelow ih =>
      cases hr with
      | cons _ hr =>
          cases slot with
          | marker block =>
              cases entry with
              | value source v => exact hslot.elim
              | marker block' =>
                  obtain rfl : block' = block := hslot
                  cases hu
                  exact ⟨entries, rfl, hbelow, hr⟩
          | value source m =>
              cases entry with
              | marker block => exact hslot.elim
              | value known v => exact ih hu hr

/-! ## Assignments -/

/-- **A write** is one more write, in the direction that is given. -/
theorem ensures_assign {value : Value} {change : Trend} (hr : p.Records watched origin n s)
    (h : p.Describes s) (hn : n + 1 < 2 ^ 64) (horigin : ∀ x k, origin x = some k → k.isNaN = false)
    (hl : l.isNaN = false) (hchange : watched target → change.Right (s.vars target) l) :
    Ensures (assign target value change) p fun _ q =>
      q.Records watched origin (n + 1) (s.bind target (some l)) := by
  refine Ensures.path.bind ?_
  rintro _ p ⟨rfl, rfl⟩
  cases hv : p.var? target with
  | none =>
      refine (Ensures.modifyPath _).imp ?_
      rintro - _ rfl
      have hnone : s.vars target = none := by
        by_contra hsome
        obtain ⟨k, hk⟩ := Option.ne_none_iff_exists'.1 hsome
        obtain ⟨v, hv', -⟩ := h.of_held hk
        rw [hv] at hv'
        cases hv'
      refine (hr.mono (Nat.le_succ n)).bind (v := (Variable.declared value.type).write value change)
        ⟨?_, fun hw op hop => ?_⟩ (fun other => ?_) rfl
      · exact Nat.succ_le_succ (Nat.zero_le n)
      · obtain ⟨k, hk, -⟩ := hchange hw op hop
        rw [hnone] at hk
        cases hk
      · show (p.vars.insert target _).get? other = _
        rw [Scopes.get?_insert, show p.vars.get? target = none from hv]
        rfl
  | some v =>
      dsimp only
      split
      · refine (Ensures.modifyPath _).imp ?_
        rintro - _ rfl
        obtain ⟨k, hk, hd⟩ := h.of_var? hv
        have hrec := hr.scalars target v k hv hk
        have hknan := Value.isNaN_of_contains hd.value
        refine (hr.mono (Nat.le_succ n)).bind (v := v.write value change) ⟨?_, fun hw => ?_⟩
          (fun other => ?_) rfl
        · show (v.version + 1).toNat ≤ n + 1
          have := hrec.version
          rw [UInt64.toNat_add, UInt64.toNat_one]
          omega
        · exact (hrec.trend hw).andThen (hk ▸ hchange hw) (horigin target) hknan hl
        · show (p.vars.modify target _).get? other = _
          rw [Scopes.get?_modify]
          split
          · rename_i heq
            subst heq
            rw [show p.vars.get? target = some v from hv]
            rfl
          · rfl
      · exact .mistake _

/-- The members of a single value are equal. -/
theorem fold_eq_of_isDeterminate {v : Value} (hd : v.isDeterminate = true)
    (hl : v.contains l = true) (hm : v.contains m = true) : RelOp.eq.fold l m = .ok true := by
  have hln := Value.isNaN_of_contains hl
  have hmn := Value.isNaN_of_contains hm
  obtain ⟨x, a, rfl, rfl, ha⟩ | ⟨x, a, rfl, rfl, ha⟩ := Value.cases_of_contains hl <;>
    obtain ⟨y, b, hy, rfl, hb⟩ | ⟨y, b, hy, rfl, hb⟩ := Value.cases_of_contains hm <;> cases hy
  · obtain ⟨h₁, h₂⟩ := LawfulBound.eq_iff.1 (Interval.eq_of_isDeterminate hd ha).1
    obtain ⟨h₃, h₄⟩ := LawfulBound.eq_iff.1 (Interval.eq_of_isDeterminate hd hb).1
    rw [fold_number _ hln hmn]
    exact congrArg _ (LawfulBound.eq_iff.2 ⟨LawfulBound.trans h₁ h₄, LawfulBound.trans h₃ h₂⟩)
  · obtain ⟨h₁, h₂⟩ := LawfulBound.eq_iff.1 (Interval.eq_of_isDeterminate hd ha).1
    obtain ⟨h₃, h₄⟩ := LawfulBound.eq_iff.1 (Interval.eq_of_isDeterminate hd hb).1
    rw [fold_string]
    exact congrArg _ (LawfulBound.eq_iff.2 ⟨LawfulBound.trans h₁ h₄, LawfulBound.trans h₃ h₂⟩)

section Instructions

variable {env : Environment} {resolve : String → Option BlockId} {node : String} {o : Operand}

theorem reads_iff {x : String} : o.reads x = true ↔ o = .var x := by
  cases o <;> simp [Operand.reads, Operand.var?]

/-- A copy moves its target only if it is known to be what the target held. -/
theorem ensures_executeAssign (henv : env.Typed) (hr : p.Records watched origin n s)
    (h : p.Describes s) (hn : n + 1 < 2 ^ 64)
    (horigin : ∀ x k, origin x = some k → k.isNaN = false) (hl : s.read o = .ok l)
    (hs' : s.write env target l = .ok s') (ho : s'.Ordered) :
    Ensures (executeAssign target o) p fun _ q => q.Records watched origin (n + 1) s' := by
  obtain ⟨rfl, -⟩ := write_eq_ok henv hs'
  have hlnan : l.isNaN = false := ho.vars target l (if_pos rfl)
  unfold executeAssign
  split
  · rename_i hreads
    obtain rfl := reads_iff.1 hreads
    refine (Ensures.warn _).bind ?_
    rintro - p rfl
    refine (ensures_operand _).bind ?_
    rintro v p ⟨-, rfl⟩
    refine ensures_assign hr h hn horigin hlnan fun _ => ?_
    simp only [State.read] at hl
    split at hl
    · rename_i k hk
      cases hl
      rw [hk]
      exact Trend.right_of_eq rfl (RelOp.fold_eq_self hlnan)
    · cases hl
  · refine (ensures_operand _).bind ?_
    rintro new p ⟨hnew, rfl⟩
    refine Ensures.path.bind ?_
    rintro _ p ⟨rfl, rfl⟩
    refine (ensures_assign hr h hn horigin hlnan fun _ => ?_).bind ?_
    · split
      · -- the old value is the only one that is copied
        rename_i hsame
        obtain ⟨v, hv, hold⟩ := (Option.any_eq_true _ _).1 hsame
        rw [Bool.and_eq_true, Bool.and_eq_true] at hold
        obtain ⟨k, hk, hd⟩ := h.of_var? hv
        obtain ⟨w, hw, hallows⟩ := readOperand_of_read h hl
        rw [hnew] at hw
        cases hw
        have hmem := Value.contains_of_beq hold.2 (hallows.contains hlnan)
        rw [hk]
        exact Trend.right_of_eq rfl (fold_eq_of_isDeterminate hold.1.2 hmem hd.value)
      · exact Trend.right_unpredictable
    · rintro - q hq
      cases o with
      | literal k => exact .pure hq
      | var source =>
          refine (Ensures.modifyPath _).imp ?_
          rintro - _ rfl
          exact hq.relate target source .eq

/-- The direction that an operation is given is right. -/
theorem changeOf_right {op : ArithOp} {lhs rhs : Operand} {v w : Value} {r : Literal}
    (hl : s.read lhs = .ok l) (hm : s.read rhs = .ok m) (hv : v.Allows l) (hw : w.Allows m)
    (hfold : op.fold l m = .ok r) (hr : r.isNaN = false) (hs' : s'.vars target = some r)
    (hsteady : (Instruction.evaluate target op lhs rhs).Steady watched s s')
    (hwatched : watched target) : (changeOf target op lhs rhs v w).Right (s.vars target) r := by
  obtain ⟨hln, hmn⟩ := ArithOp.isNaN_of_fold hfold hr
  have hheld : ∀ {k}, s.read (.var target) = .ok k → s.vars target = some k := by
    intro k hk
    simp only [State.read] at hk
    split at hk
    · cases hk
      assumption
    · cases hk
  unfold changeOf
  split
  · rename_i hreads
    obtain rfl := reads_iff.1 hreads
    obtain ⟨hkept, -⟩ := hsteady hwatched rhs l m r (if_pos hreads) (hheld hl) hm hs'
    rw [hheld hl]
    exact Trend.ofStep_right (hv.contains hln) (hw.contains hmn) hfold hr hkept
  · rename_i hlhs
    split
    · rename_i hreads
      have hstep : Instruction.stepOperand? target op lhs rhs = some lhs := by
        rw [Instruction.stepOperand?, if_neg hlhs, if_pos hreads]
      rw [Bool.and_eq_true, Bool.or_eq_true, beq_iff_eq, beq_iff_eq] at hreads
      obtain ⟨hrhs, hop⟩ := hreads
      obtain rfl := reads_iff.1 hrhs
      obtain ⟨hkept, htype⟩ := hsteady hwatched lhs m l r hstep (hheld hm) hl hs'
      rw [hheld hm]
      refine Trend.ofStep_right (hw.contains hmn) (hv.contains hln) ?_ hr hkept
      exact ArithOp.fold_comm hop hfold (htype (by simpa using hlhs))
    · exact Trend.right_unpredictable

theorem ensures_executeEvaluate (henv : env.Typed) {op : ArithOp} {lhs rhs : Operand}
    {r : Literal} (hrec : p.Records watched origin n s) (h : p.Describes s)
    (hn : n + 1 < 2 ^ 64) (horigin : ∀ x k, origin x = some k → k.isNaN = false)
    (hl : s.read lhs = .ok l) (hm : s.read rhs = .ok m) (hr : State.apply op l m = .ok r)
    (hs' : s.write env target r = .ok s') (ho : s'.Ordered)
    (hsteady : (Instruction.evaluate target op lhs rhs).Steady watched s s') :
    Ensures (executeEvaluate target op lhs rhs) p fun _ q =>
      q.Records watched origin (n + 1) s' := by
  obtain ⟨rfl, -⟩ := write_eq_ok henv hs'
  have hrnan : r.isNaN = false := ho.vars target r (if_pos rfl)
  obtain ⟨v, hv, hva⟩ := readOperand_of_read h hl
  obtain ⟨w, hw, hwa⟩ := readOperand_of_read h hm
  refine (ensures_operand _).bind ?_
  rintro v' p ⟨hv', rfl⟩
  cases hv.symm.trans hv'
  refine (ensures_operand _).bind ?_
  rintro w' p ⟨hw', rfl⟩
  cases hw.symm.trans hw'
  refine .warn_if (.warn_if ((Ensures.lift _).bind ?_))
  rintro u p ⟨-, rfl⟩
  exact ensures_assign hrec h hn horigin hrnan fun hwatched =>
    changeOf_right hl hm hva hwa (fold_of_apply hr) hrnan (if_pos rfl) hsteady hwatched

theorem ensures_input (hr : p.Records watched origin n s) (h : p.Describes s)
    (hn : n + 1 < 2 ^ 64) (horigin : ∀ x k, origin x = some k → k.isNaN = false)
    (hs' : s.receive env target = .ok s') (ho : s'.Ordered) :
    Ensures (execute resolve node (.input target)) p fun _ q =>
      q.Records watched origin (n + 1) s' := by
  unfold State.receive at hs'
  split at hs'
  · rename_i l _
    split at hs'
    · cases hs'
    · cases hs'
      refine Ensures.path.bind ?_
      rintro _ p ⟨rfl, rfl⟩
      have hl : l.isNaN = false := ho.vars target l (if_pos rfl)
      refine (ensures_assign hr h hn horigin hl fun _ => Trend.right_unpredictable).imp ?_
      exact fun _ q hq => hq.congr rfl rfl rfl rfl
  · cases hs'

/-! ## The stack -/

theorem ensures_push (henv : env.Typed) (hr : p.Records watched origin n s) (h : p.Describes s)
    (hl : s.read o = .ok l) :
    Ensures (executePush o) p fun _ q =>
      q.Records watched origin n (s.push (.value (if env.checked then o.var? else none) l)) := by
  cases o with
  | literal k =>
      unfold executePush
      refine (Ensures.modifyPath _).imp ?_
      rintro - _ rfl
      exact hr.push trivial
  | var name =>
      refine Ensures.path.bind ?_
      rintro _ p ⟨rfl, rfl⟩
      simp only [State.read] at hl
      split at hl
      · rename_i k hk
        cases hl
        obtain ⟨v, hv, -⟩ := h.of_held hk
        rw [hv, if_pos henv.checked]
        refine (Ensures.modifyPath _).imp ?_
        rintro - _ rfl
        exact hr.push (hr.scalars name v l hv hk)
      · cases hl

/-- A value that goes back into its variable takes along how it moved. -/
theorem ensures_pop (henv : env.Typed) {dest : Option String}
    (hr : p.Records watched origin n s) (h : p.Describes s) (hn : n + 1 < 2 ^ 64)
    (horigin : ∀ x k, origin x = some k → k.isNaN = false)
    (hs' : s.pop env dest = .ok s') (ho : s'.Ordered) :
    Ensures (executePop node dest) p fun _ q => q.Records watched origin (n + 1) s' := by
  unfold State.pop at hs'
  split at hs'
  · cases hs'
  · cases hs'
  · rename_i source l rest hstack
    obtain ⟨known, v, htop, hv, hrest⟩ := exists_top h hstack
    obtain ⟨e, he, hsaved, hbelow⟩ := hr.of_top hstack
    rw [htop] at he
    cases he
    refine Ensures.path.bind ?_
    rintro _ p ⟨rfl, rfl⟩
    refine (Ensures.modifyPath _).bind ?_
    rintro - _ rfl
    rw [htop]
    cases dest with
    | none =>
        cases hs'
        exact .pure (hbelow.mono (Nat.le_succ n))
    | some x =>
        have hbound : s' = ({ s with stack := rest } : State).bind x (some l) := by
          dsimp only at hs'
          split at hs'
          · cases hs'
            rfl
          · exact (write_eq_ok henv hs').1
        subst hbound
        dsimp only
        split
        · rename_i hknown
          subst hknown
          refine (Ensures.modifyPath _).imp ?_
          rintro - _ rfl
          exact hbelow.insertVar hrest hn (Variable.Records.mono hsaved (Nat.le_succ n))
        · have hl : l.isNaN = false := ho.vars x l (if_pos rfl)
          refine (ensures_assign hbelow hrest hn horigin hl fun _ =>
            Trend.right_unpredictable).bind ?_
          rintro - q hq
          refine (Ensures.modifyPath _).imp ?_
          rintro - _ rfl
          exact hq.modifyVar fun _ => ⟨rfl, rfl⟩

/-! ## Arrays -/

theorem ensures_numericOperand (o : Operand) :
    Ensures (numericOperand o) p fun _ q => q = p := by
  refine (ensures_operand o).bind ?_
  rintro v p ⟨-, rfl⟩
  cases v with
  | number r => exact .pure rfl
  | string t => exact .mistake _

theorem ensures_arrayNamed (array : String) : Ensures (arrayNamed array) p fun _ q => q = p := by
  refine Ensures.path.bind ?_
  rintro _ p ⟨rfl, rfl⟩
  split
  · exact .pure rfl
  · exact .mistake _

theorem ensures_warnOverflow (array : String) (index : Interval Double) (range : IndexRange) :
    Ensures (warnOverflow array index range) p fun _ q => q = p := by
  unfold warnOverflow
  split
  · exact .warn _
  · exact .pure rfl

theorem ensures_executeDeclareArray (name : String) (type : ValueType) (o : Operand) :
    Ensures (executeDeclareArray name type o) p fun _ q =>
      q.vars = p.vars ∧ q.stack = p.stack := by
  refine (ensures_numericOperand o).bind ?_
  rintro - p rfl
  refine (Ensures.lift _).bind ?_
  rintro a p ⟨-, rfl⟩
  refine .warn_if ((Ensures.modifyPath _).imp ?_)
  rintro - _ rfl
  exact ⟨rfl, rfl⟩

theorem ensures_executeWriteArray (array : String) (index value : Operand) :
    Ensures (executeWriteArray array index value) p fun _ q =>
      q.vars = p.vars ∧ q.stack = p.stack := by
  refine (ensures_numericOperand index).bind ?_
  rintro - p rfl
  refine (ensures_operand value).bind ?_
  rintro v p ⟨-, rfl⟩
  refine (ensures_arrayNamed array).bind ?_
  rintro a p rfl
  split
  · have hnever : ∀ e, Ensures (mistake e : Exec PUnit) p fun _ _ => False := fun _ => .mistake _
    exact (hnever _).bind fun _ _ h => h.elim
  · refine (Ensures.lift _).bind ?_
    rintro range p ⟨-, rfl⟩
    refine (Ensures.modifyPath _).bind ?_
    rintro - _ rfl
    refine (ensures_warnOverflow array _ range).imp ?_
    rintro - _ rfl
    exact ⟨rfl, rfl⟩

theorem vars_of_declareArray {name : String} {type : ValueType}
    (h : s.declareArray env name type o = .ok s') : s'.vars = s.vars ∧ s'.stack = s.stack := by
  obtain ⟨d, -, h⟩ := bind_eq_ok_iff.1 h
  split at h
  · split at h
    · cases h
      exact ⟨rfl, rfl⟩
    · cases h
  · cases h

theorem vars_of_writeArray {array : String} {index : Operand}
    (h : s.writeArray env array index o = .ok s') : s'.vars = s.vars ∧ s'.stack = s.stack := by
  obtain ⟨d, -, h⟩ := bind_eq_ok_iff.1 h
  obtain ⟨l, -, h⟩ := bind_eq_ok_iff.1 h
  obtain ⟨c, -, h⟩ := bind_eq_ok_iff.1 h
  dsimp only at h
  split at h
  · cases h
  · obtain ⟨i, -, h⟩ := bind_eq_ok_iff.1 h
    cases h
    exact ⟨rfl, rfl⟩

theorem ensures_executeReadArray (henv : env.Typed) {array : String}
    (hr : p.Records watched origin n s) (h : p.Describes s) (hn : n + 1 < 2 ^ 64)
    (horigin : ∀ x k, origin x = some k → k.isNaN = false)
    (hs' : s.readArray env target array o = .ok s') (ho : s'.Ordered) :
    Ensures (executeReadArray target array o) p fun _ q =>
      q.Records watched origin (n + 1) s' := by
  obtain ⟨d, -, hs'⟩ := bind_eq_ok_iff.1 hs'
  obtain ⟨c, -, hs'⟩ := bind_eq_ok_iff.1 hs'
  obtain ⟨i, -, hs'⟩ := bind_eq_ok_iff.1 hs'
  split at hs'
  · rename_i l _
    obtain ⟨rfl, -⟩ := write_eq_ok henv hs'
    have hl : l.isNaN = false := ho.vars target l (if_pos rfl)
    have hdone : ∀ value, Ensures (assign target value .unpredictable) p fun _ q =>
        q.Records watched origin (n + 1) (s.bind target (some l)) := fun value =>
      ensures_assign hr h hn horigin hl fun _ => Trend.right_unpredictable
    refine (ensures_numericOperand o).bind ?_
    rintro place p rfl
    refine (ensures_arrayNamed array).bind ?_
    rintro a p rfl
    refine (Ensures.lift _).bind ?_
    rintro range p ⟨-, rfl⟩
    refine (ensures_warnOverflow array place range).bind ?_
    rintro - p rfl
    dsimp only
    split
    · exact hdone _
    · refine (Ensures.warn _).bind ?_
      rintro - p rfl
      exact hdone _
  · exact absurd hs' (by simp [throw, throwThe, MonadExceptOf.throw])

/-! ## Instructions -/

/-- A declaration is no movement, so that no watched variable may be declared. -/
theorem ensures_declare {name : String} (h : p.Describes s) (hr : p.Records watched origin n s)
    (hn : n + 1 < 2 ^ 64) (hname : ¬ watched name) (type : ValueType) (l : Literal) :
    Ensures (execute resolve node (.declare name type)) p fun _ q =>
      q.Records watched origin (n + 1) (s.bind name (some l)) := by
  simp only [execute]
  refine (Ensures.modifyPath _).imp ?_
  rintro - _ rfl
  exact hr.insertVar h hn ⟨Nat.zero_le _, fun hw => absurd hw hname⟩

/-- **A steady instruction** keeps the notes right, with one more write. -/
theorem execute_records (henv : env.Typed) {i : Instruction} (h : p.Describes s)
    (hr : p.Records watched origin n s) (hn : n + 1 < 2 ^ 64)
    (horigin : ∀ x k, origin x = some k → k.isNaN = false)
    (hi : s.exec env resolve i = .ok s') (ho : s'.Ordered) (hsteady : i.Steady watched s s') :
    Ensures (execute resolve node i) p fun _ q => q.Records watched origin (n + 1) s' := by
  have hmono := hr.mono (Nat.le_succ n)
  cases i with
  | declare name type =>
      cases hi
      obtain ⟨l, hl, -⟩ := henv.scalar name type
      rw [hl]
      exact ensures_declare h hr hn hsteady type l
  | assign target o =>
      obtain ⟨l, hl, hs'⟩ := bind_eq_ok_iff.1 hi
      exact ensures_executeAssign henv hr h hn horigin hl hs' ho
  | evaluate target op lhs rhs =>
      obtain ⟨l, hl, hi⟩ := bind_eq_ok_iff.1 hi
      obtain ⟨m, hm, hi⟩ := bind_eq_ok_iff.1 hi
      obtain ⟨r, hfold, hs'⟩ := bind_eq_ok_iff.1 hi
      exact ensures_executeEvaluate henv hr h hn horigin hl hm hfold hs' ho hsteady
  | print o =>
      obtain ⟨l, hl, hs'⟩ := bind_eq_ok_iff.1 hi
      cases hs'
      refine (ensures_operand o).bind ?_
      rintro v p ⟨-, rfl⟩
      exact .pure (hmono.congr rfl rfl rfl rfl)
  | input target => exact ensures_input hr h hn horigin hi ho
  | push o =>
      obtain ⟨e, he, hs'⟩ := bind_eq_ok_iff.1 hi
      obtain ⟨l, hl, he⟩ := bind_eq_ok_iff.1 he
      cases he
      cases hs'
      exact (ensures_push henv hr h hl).imp fun _ _ hq => hq.mono (Nat.le_succ n)
  | pushState block =>
      simp only [State.exec] at hi
      split at hi
      · rename_i id hid
        cases hi
        simp only [execute, hid]
        refine (Ensures.modifyPath _).imp ?_
        rintro - _ rfl
        exact hmono.push trivial
      · cases hi
  | pop dest => exact ensures_pop henv hr h hn horigin hi ho
  | declareArray name type size =>
      refine (ensures_executeDeclareArray name type size).imp ?_
      rintro - q ⟨hvars, hstack⟩
      obtain ⟨hheld, hentries⟩ := vars_of_declareArray hi
      exact hmono.congr hvars hstack hheld hentries
  | readArray target array index => exact ensures_executeReadArray henv hr h hn horigin hi ho
  | writeArray array index o =>
      refine (ensures_executeWriteArray array index o).imp ?_
      rintro - q ⟨hvars, hstack⟩
      obtain ⟨hheld, hentries⟩ := vars_of_writeArray hi
      exact hmono.congr hvars hstack hheld hentries
  | jumpIf test block => cases hi
  | jump block => cases hi
  | ret value => cases hi

end Instructions

end Symbolic
end FlowVerifier
