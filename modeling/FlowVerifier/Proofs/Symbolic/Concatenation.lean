import FlowVerifier.Proofs.Symbolic.Tests
import FlowVerifier.Proofs.Symbolic.Trends
import Mathlib.Data.String.Basic

/-!
# Which way a concatenation moves

A variable `t` that is assigned a concatenation with itself gets a trend.  The trend is found
from the possible values of the other operand, as if that one were appended: more characters at
the end make a string greater.  More characters in front need not: `"ab"` is below `"b"`.

* `Text.lt_append_self_iff` says when a string gets greater with `s` in front of it: exactly if
  it is below `s ++ s ++ s ++ ⋯`, of which as many copies count as the string has characters,
  and one more.
* `outcome_concat` is the effect of a concatenation on a variable that there is.
* `concat_tagged` says when the trend that it leaves is right: unless the variable is the right
  operand only, the left one is certainly not empty, and the string that the variable held is
  not below the repeated left operand.
-/

namespace FlowVerifier

/-! ## Strings in front of strings -/

namespace Text

section Characters

variable {l x y z : List Char}

theorem append_lt_append_iff (l x y : List Char) : l ++ x < l ++ y ↔ x < y := by
  induction l with
  | nil => exact Iff.rfl
  | cons c l ih => simp [ih]

/-- What does not start with `l` compares with `l` alone. -/
theorem lt_append_iff_of_not_prefix (h : ¬ l <+: x) (y z : List Char) :
    x < l ++ y ↔ x < l ++ z := by
  induction l generalizing x with
  | nil => exact absurd List.nil_prefix h
  | cons c l ih =>
      cases x with
      | nil => simp
      | cons d x =>
          rw [List.cons_append, List.cons_append, List.cons_lt_cons_iff, List.cons_lt_cons_iff]
          refine or_congr_right (and_congr_right fun hdc => ih fun hpre => h ?_)
          rw [hdc]
          exact (List.prefix_cons_inj c).2 hpre

/-- The repetition of `l` decides whether `l` in front makes `x` greater. -/
theorem lt_append_self_iff_flatten (hl : l ≠ []) {n : Nat} (hn : x.length < n) :
    x < l ++ x ↔ x < (List.replicate n l).flatten := by
  induction n generalizing x with
  | zero => exact absurd hn (Nat.not_lt_zero _)
  | succ n ih =>
      rw [List.replicate_succ, List.flatten_cons]
      by_cases hpre : l <+: x
      · obtain ⟨y, rfl⟩ := hpre
        have hy : y.length < n := by
          have hpos := List.length_pos_iff.2 hl
          rw [List.length_append] at hn
          omega
        rw [append_lt_append_iff, append_lt_append_iff, ih hy]
      · exact lt_append_iff_of_not_prefix hpre _ _

end Characters

/-- Several copies of a string, one after the other. -/
def repeated (s : String) : Nat → String
  | 0 => ""
  | n + 1 => s ++ repeated s n

theorem toList_repeated (s : String) (n : Nat) :
    (repeated s n).toList = (List.replicate n s.toList).flatten := by
  induction n with
  | zero => rfl
  | succ n ih => rw [repeated, String.toList_append, ih, List.replicate_succ, List.flatten_cons]

/-- **Prefixes.**  A string is below itself with `s` in front exactly if it is below `s`
repeated often enough. -/
theorem lt_append_self_iff {s : String} (hs : s ≠ "") (x : String) :
    x < s ++ x ↔ x < repeated s (x.length + 1) := by
  have hl : s.toList ≠ [] := fun h => hs (String.toList_eq_nil_iff.1 h)
  rw [String.lt_iff_toList_lt, String.lt_iff_toList_lt, String.toList_append, toList_repeated]
  exact lt_append_self_iff_flatten hl (by rw [String.length_toList]; exact Nat.lt_succ_self _)

end Text

namespace Symbolic

open Exec

/-! ## The trend of an appended string -/

namespace Trend

variable {y : Interval TextBound} {t : String}

/-- What a trend says of a string that took the place of another one. -/
def Judges (trend : Trend) (old new : String) : Prop :=
  match trend with
  | untouched => True
  | unchanged => new = old
  | increasing => old < new
  | decreasing => new < old
  | unpredictable => True

/-- What is appended moves a string as the trend says. -/
theorem judges_appended (hy : y.contains (.str t) = true) (x : String) :
    (ofAppended y).Judges x (x ++ t) := by
  obtain ⟨h, hmem⟩ | ⟨h, -, rfl⟩ | ⟨h, -⟩ := ofAppended_cases hy <;> rw [h]
  · have ht : t ≠ "" := fun ht => Bool.eq_false_iff.1 hmem (ht ▸ hy)
    have hlt : x < x ++ t := of_decide_eq_true (Interval.lt_append x ht)
    exact hlt
  · exact String.append_empty
  · exact trivial

/-- What is put in front moves a string as the trend says, unless that is certainly something
and the string is not below its repetition. -/
theorem judges_in_front (hy : y.contains (.str t) = true) (x : String) :
    (ofAppended y).Judges x (t ++ x) ↔
      ¬ (¬ y.contains (.str "") = true ∧ Text.repeated t (x.length + 1) ≤ x) := by
  obtain ⟨h, hmem⟩ | ⟨h, hmem, rfl⟩ | ⟨h, hmem⟩ := ofAppended_cases hy <;> rw [h]
  · have ht : t ≠ "" := fun ht => Bool.eq_false_iff.1 hmem (ht ▸ hy)
    rw [hmem, and_iff_right Bool.false_ne_true, String.not_le]
    exact Text.lt_append_self_iff ht x
  · exact iff_of_true String.empty_append fun hx => hx.1 hmem
  · exact iff_of_true trivial fun hx => hx.1 hmem

end Trend

/-! ## Concatenations on a path -/

/-- The literal is one of the values that an operand may have on the path. -/
def Path.MayRead (p : Path) (o : Operand) (l : Literal) : Prop :=
  ∃ v, readOperand p o = .ok v ∧ v.contains l = true

/-- The target is assigned itself with a string in front that is certainly not empty, and that
makes what it held, `x`, no greater. -/
def Path.PutsInFront (p : Path) (target : String) (lhs rhs : Operand) (s x : String) : Prop :=
  lhs.reads target = false ∧ rhs.reads target = true ∧ ¬ p.MayRead lhs (.string "") ∧
    Text.repeated s (x.length + 1) ≤ x

variable {p : Path} {target : String} {lhs rhs : Operand} {v : Variable} {s r x : String}

/-- A string operand is read from an interval of strings. -/
theorem Path.MayRead.exists_range {o : Operand} (h : p.MayRead o (.string s)) :
    ∃ a, readOperand p o = .ok (.string a) ∧ a.contains (.str s) = true := by
  obtain ⟨v, hv, hmem⟩ := h
  obtain ⟨a, y, rfl, hl, -⟩ | ⟨a, y, rfl, hl, hs⟩ := Value.cases_of_contains hmem
  · cases hl
  · cases hl
    exact ⟨a, hv, hs⟩

theorem Path.mayRead_iff {o : Operand} {a : Interval TextBound}
    (h : readOperand p o = .ok (.string a)) :
    p.MayRead o (.string s) ↔ a.contains (.str s) = true := by
  constructor
  · rintro ⟨v, hv, hmem⟩
    cases h.symm.trans hv
    exact hmem
  · exact fun hmem => ⟨_, h, hmem⟩

theorem Path.var?_modifyVar (hv : p.var? target = some v) (f : Variable → Variable) :
    (p.modifyVar target f).var? target = some (f v) := by
  have hget : p.vars.get? target = some v := hv
  rw [Path.modifyVar, Path.var?, Scopes.get?_modify, if_pos rfl, hget]
  rfl

/-- **An assignment** to a variable that there is writes it, if the types agree. -/
theorem outcome_assign {value : Value} {t : Trace} (hv : t.path.var? target = some v)
    (change : Trend) :
    outcome (assign target value change) t =
      if v.type = value.type then
        (.ok (), { t with path := t.path.modifyVar target (·.write value change) })
      else (.error (.program (.assignmentMismatch target v.type value.type)), t) := by
  unfold assign
  rw [outcome_bind, outcome_path]
  simp only [hv]
  split <;> rfl

/-- A warning that may be raised before an execution makes no difference to its result. -/
theorem outcome_warn_if {c : Prop} [Decidable c] (message : String) (x : Exec Unit) (t : Trace) :
    ∃ ws, outcome (if c then Exec.warn message >>= fun _ => x else x) t =
      outcome x { t with warnings := ws } := by
  split
  · exact ⟨t.warnings.push message, rfl⟩
  · exact ⟨t.warnings, rfl⟩

/-- The way in which a concatenation moves its target: as if the other operand were
appended. -/
theorem changeOf_concat (target : String) (lhs rhs : Operand) (a b : Interval TextBound) :
    changeOf target .add lhs rhs (.string a) (.string b) =
      if lhs.reads target then .ofAppended b
      else if rhs.reads target then .ofAppended a
      else .unpredictable := by
  unfold changeOf
  cases rhs.reads target <;> rfl

/-- **A concatenation** of strings writes its target, if that is for strings. -/
theorem outcome_concat (resolve : String → Option BlockId) (node : String)
    {a b : Interval TextBound} (hv : p.var? target = some v)
    (ha : readOperand p lhs = .ok (.string a)) (hb : readOperand p rhs = .ok (.string b))
    (ws : Array String) :
    ∃ ws', outcome (execute resolve node (.evaluate target .add lhs rhs)) ⟨p, ws⟩ =
      if v.type = .string then
        (.ok (), ⟨p.modifyVar target (·.write (.string (a.concat b))
          (changeOf target .add lhs rhs (.string a) (.string b))), ws'⟩)
      else (.error (.program (.assignmentMismatch target v.type .string)), ⟨p, ws'⟩) := by
  obtain ⟨w₁, h₁⟩ := outcome_operand lhs ⟨p, ws⟩
  obtain ⟨w₂, h₂⟩ := outcome_operand rhs ⟨p, w₁⟩
  rw [show readOperand (Trace.mk p ws).path lhs = _ from ha] at h₁
  rw [show readOperand (Trace.mk p w₁).path rhs = _ from hb] at h₂
  show ∃ ws', outcome (executeEvaluate target .add lhs rhs) ⟨p, ws⟩ = _
  unfold executeEvaluate
  rw [outcome_bind, h₁]
  dsimp only [answer]
  rw [outcome_bind, h₂]
  dsimp only [answer]
  have hdiv : mayDivideByZero .add (.string b) = false := rfl
  simp only [hdiv, Bool.false_eq_true, if_false]
  obtain ⟨w₃, h₃⟩ := outcome_warn_if (c := isUseless .add lhs rhs = true)
    s!"useless operation '{Instruction.evaluate target .add lhs rhs}'"
    (lift (Value.apply .add (.string a) (.string b)) >>= fun result =>
      assign target result (changeOf target .add lhs rhs (.string a) (.string b))) ⟨p, w₂⟩
  refine ⟨w₃, h₃.trans ?_⟩
  rw [outcome_bind, outcome_lift]
  exact outcome_assign hv _

/-- The trend of a concatenation of strings is right for its target, unless something is put in
front of it. -/
theorem judges_changeOf {a b : Interval TextBound} (ha : readOperand p lhs = .ok (.string a))
    (hsa : a.contains (.str s) = true) (hrb : b.contains (.str r) = true)
    (hlhs : lhs.reads target = true → s = x) (hrhs : rhs.reads target = true → r = x) :
    (changeOf target .add lhs rhs (.string a) (.string b)).Judges x (s ++ r) ↔
      ¬ p.PutsInFront target lhs rhs s x := by
  rw [changeOf_concat]
  unfold Path.PutsInFront
  cases hl : lhs.reads target with
  | true =>
      rw [if_pos rfl, hlhs hl]
      exact iff_of_true (Trend.judges_appended hrb x) fun h => Bool.noConfusion h.1
  | false =>
      rw [if_neg Bool.false_ne_true]
      cases hr : rhs.reads target with
      | true =>
          rw [if_pos rfl, hrhs hr, Path.mayRead_iff ha, and_iff_right rfl, and_iff_right rfl]
          exact Trend.judges_in_front hsa x
      | false =>
          rw [if_neg Bool.false_ne_true]
          exact iff_of_true trivial fun h => Bool.noConfusion h.2.1

/-- **The trend of a concatenation.**  A variable that has not been written is assigned a
concatenation of strings; in a state that the path describes, it held `x`, and the operands are
`s` and `r`.  If it is for strings, the trend that is left is right unless the variable is the
right operand only, the left operand is certainly not empty, and `x` is not below the repeated
left operand.  Otherwise the assignment is a mistake. -/
theorem concat_tagged (resolve : String → Option BlockId) (node : String) (ws : Array String)
    (hv : p.var? target = some v) (hfresh : v.trend = .untouched)
    (hs : p.MayRead lhs (.string s)) (hr : p.MayRead rhs (.string r))
    (hlhs : lhs.reads target = true → s = x) (hrhs : rhs.reads target = true → r = x) :
    ∃ ws', if v.type = .string then
        ∃ q w, outcome (execute resolve node (.evaluate target .add lhs rhs)) ⟨p, ws⟩ =
            (.ok (), ⟨q, ws'⟩) ∧ q.var? target = some w ∧
          (w.trend.Judges x (s ++ r) ↔ ¬ p.PutsInFront target lhs rhs s x)
      else
        outcome (execute resolve node (.evaluate target .add lhs rhs)) ⟨p, ws⟩ =
          (.error (.program (.assignmentMismatch target v.type .string)), ⟨p, ws'⟩) := by
  obtain ⟨a, ha, hsa⟩ := hs.exists_range
  obtain ⟨b, hb, hrb⟩ := hr.exists_range
  obtain ⟨ws', hrun⟩ := outcome_concat resolve node hv ha hb ws
  refine ⟨ws', ?_⟩
  by_cases htype : v.type = .string
  · rw [if_pos htype] at hrun ⊢
    refine ⟨_, _, hrun, Path.var?_modifyVar hv _, ?_⟩
    have htrend : v.trend.andThen (changeOf target .add lhs rhs (.string a) (.string b)) =
        changeOf target .add lhs rhs (.string a) (.string b) := by
      rw [hfresh]
      cases changeOf target .add lhs rhs (.string a) (.string b) <;> rfl
    show (v.trend.andThen _).Judges x (s ++ r) ↔ _
    rw [htrend]
    exact judges_changeOf ha hsa hrb hlhs hrhs
  · rw [if_neg htype] at hrun ⊢
    exact hrun

/-- The path on which nothing has happened but that `t` got a string. -/
def Path.holding (x : String) : Path :=
  Path.start.insertVar "t" (.ofValue (.ofLiteral (.string x)))

theorem concat_tagged_append :
    (Path.holding "b").var? "t" = some (.ofValue (.ofLiteral (.string "b"))) ∧
      (Path.holding "b").MayRead (.var "t") (.string "b") ∧
      (Path.holding "b").MayRead (.literal (.string "a")) (.string "a") ∧
      ∃ ws q w, outcome (execute (fun _ => none) "main"
          (.evaluate "t" .add (.var "t") (.literal (.string "a")))) ⟨Path.holding "b", #[]⟩ =
            (.ok (), ⟨q, ws⟩) ∧ q.var? "t" = some w ∧ w.trend.Judges "b" ("b" ++ "a") := by
  have hv : (Path.holding "b").var? "t" = some (.ofValue (.ofLiteral (.string "b"))) := rfl
  have hs : (Path.holding "b").MayRead (.var "t") (.string "b") := ⟨_, rfl, by decide⟩
  have hr : (Path.holding "b").MayRead (.literal (.string "a")) (.string "a") :=
    ⟨_, rfl, by decide⟩
  obtain ⟨ws, h⟩ := concat_tagged (fun _ => none) "main" #[] hv rfl hs hr (fun _ => rfl)
    fun h => absurd h (by decide)
  have htype : (Variable.ofValue (.ofLiteral (.string "b"))).type = .string := rfl
  rw [if_pos htype] at h
  obtain ⟨q, w, hrun, hw, hiff⟩ := h
  exact ⟨hv, hs, hr, ws, q, w, hrun, hw, hiff.2 fun h => absurd h.1 (by decide)⟩

/-- With a string in front of it, a variable counts as increasing, although it decreases. -/
theorem concat_in_front :
    (Path.holding "b").var? "t" = some (.ofValue (.ofLiteral (.string "b"))) ∧
      (Path.holding "b").MayRead (.literal (.string "a")) (.string "a") ∧
      (Path.holding "b").MayRead (.var "t") (.string "b") ∧
      ∃ ws q w, outcome (execute (fun _ => none) "main"
          (.evaluate "t" .add (.literal (.string "a")) (.var "t"))) ⟨Path.holding "b", #[]⟩ =
            (.ok (), ⟨q, ws⟩) ∧ q.var? "t" = some w ∧ w.trend = .increasing ∧
          "a" ++ "b" < "b" := by
  refine ⟨rfl, ⟨_, rfl, by decide⟩, ⟨_, rfl, by decide⟩, _, _, _, rfl, rfl, ?_, by decide⟩
  decide

end Symbolic
end FlowVerifier
