import FlowVerifier.Proofs.Symbolic.Likeness
import FlowVerifier.Proofs.Symbolic.Tests

/-!
# Searches in lockstep

Two executions on alike paths run in *tandem* if both succeed and leave alike paths, or
both make a mistake, or both meet a defect.  What they warn of may differ.

* One lemma for each instruction: it runs in tandem with an instruction whose operands
  are read alike.
* `tandem_takeBranch`, `tandem_takeReturn`: so do the terminators.
-/

namespace FlowVerifier
namespace Symbolic

/-! ## Executions in tandem -/

namespace Exec

variable {α β γ δ : Type}

/-- Two outcomes match if both are successes as described, or failures of one kind. -/
inductive Matches (post : α → Path → β → Path → Prop) :
    Except Error α × Trace → Except Error β × Trace → Prop where
  /-- Both succeed. -/
  | ok {a : α} {b : β} {t t' : Trace} (h : post a t.path b t'.path) :
      Matches post (.ok a, t) (.ok b, t')
  /-- Both fail. -/
  | error {e e' : Error} {t t' : Trace} (h : e.isRecoverable = e'.isRecoverable) :
      Matches post (.error e, t) (.error e', t')

/-- Two executions on two paths have outcomes that match. -/
def Tandem (x : Exec α) (p : Path) (y : Exec β) (q : Path)
    (post : α → Path → β → Path → Prop) : Prop :=
  ∀ ws ws', Matches post (outcome x ⟨p, ws⟩) (outcome y ⟨q, ws'⟩)

namespace Tandem

variable {x : Exec α} {y : Exec β} {p q : Path} {post : α → Path → β → Path → Prop}

theorem pure {a : α} {b : β} (h : post a p b q) : Tandem (pure a) p (pure b) q post :=
  fun _ _ => .ok h

theorem throw {e e' : Error} (h : e.isRecoverable = e'.isRecoverable) :
    Tandem (throw e) p (throw e') q post := fun _ _ => .error h

theorem mistake (e e' : ProgramError) : Tandem (mistake e) p (mistake e') q post :=
  fun _ _ => .error rfl

theorem bind {f : α → Exec γ} {g : β → Exec δ} {last : γ → Path → δ → Path → Prop}
    (hx : Tandem x p y q post)
    (hf : ∀ a p' b q', post a p' b q' → Tandem (f a) p' (g b) q' last) :
    Tandem (x >>= f) p (y >>= g) q last := by
  intro ws ws'
  have hxy := hx ws ws'
  rcases hox : outcome x ⟨p, ws⟩ with ⟨r, t⟩
  rcases hoy : outcome y ⟨q, ws'⟩ with ⟨r', t'⟩
  rw [hox, hoy] at hxy
  cases hxy with
  | ok h =>
      rw [outcome_bind_ok hox, outcome_bind_ok hoy]
      exact hf _ _ _ _ h t.warnings t'.warnings
  | error h =>
      rw [outcome_bind_error hox, outcome_bind_error hoy]
      exact .error h

theorem imp {other : α → Path → β → Path → Prop} (hx : Tandem x p y q post)
    (himp : ∀ a p' b q', post a p' b q' → other a p' b q') : Tandem x p y q other := by
  intro ws ws'
  have hxy := hx ws ws'
  generalize outcome x ⟨p, ws⟩ = r, outcome y ⟨q, ws'⟩ = r' at hxy
  cases hxy with
  | ok h => exact .ok (himp _ _ _ _ h)
  | error h => exact .error h

theorem path : Tandem path p path q fun a p' b q' => a = p ∧ p' = p ∧ b = q ∧ q' = q :=
  fun _ _ => .ok ⟨rfl, rfl, rfl, rfl⟩

theorem path_left {f : Path → Exec α} (h : Tandem (f p) p y q post) :
    Tandem (Exec.path >>= f) p y q post := fun ws ws' => h ws ws'

theorem path_right {f : Path → Exec β} (h : Tandem x p (f q) q post) :
    Tandem x p (Exec.path >>= f) q post := fun ws ws' => h ws ws'

theorem modifyPath (f f' : Path → Path) :
    Tandem (modifyPath f) p (modifyPath f') q fun _ p' _ q' => p' = f p ∧ q' = f' q :=
  fun _ _ => .ok ⟨rfl, rfl⟩

/-- A warning on one side makes no difference. -/
theorem warn_left (message : String) (h : Tandem x p y q post) :
    Tandem (warn message >>= fun _ => x) p y q post :=
  fun ws ws' => h (ws.push message) ws'

theorem warn_right (message : String) (h : Tandem x p y q post) :
    Tandem x p (warn message >>= fun _ => y) q post :=
  fun ws ws' => h ws (ws'.push message)

theorem warn_if_left {c : Prop} [Decidable c] {message : String} (h : Tandem x p y q post) :
    Tandem (if c then warn message >>= fun _ => x else x) p y q post := by
  split
  · exact h.warn_left message
  · exact h

theorem warn_if_right {c : Prop} [Decidable c] {message : String} (h : Tandem x p y q post) :
    Tandem x p (if c then warn message >>= fun _ => y else y) q post := by
  split
  · exact h.warn_right message
  · exact h

/-- Computations that give the same result if they give one. -/
theorem lift {r r' : Except ProgramError α} (h : r.toOption = r'.toOption) :
    Tandem (lift r) p (lift r') q fun a p' b q' => a = b ∧ p' = p ∧ q' = q := by
  cases r with
  | ok a =>
      cases r' with
      | ok b => exact .pure ⟨Option.some.inj h, rfl, rfl⟩
      | error e => exact absurd h (by simp [Except.toOption])
  | error e =>
      cases r' with
      | ok b => exact absurd h (by simp [Except.toOption])
      | error e' => exact .mistake e e'

end Tandem
end Exec

open Exec

variable {slack : Slack} {p q p' q' : Path} {o o' : Operand} {target node : String}
  {value : Value}

/-! ## Operands -/

/-- Two operands are read alike on two paths. -/
def ReadAlike (p : Path) (o : Operand) (q : Path) (o' : Operand) : Prop :=
  (readOperand p o).toOption = (readOperand q o').toOption

/-- The operand is none of the variables. -/
def Avoids (names : List String) (o : Operand) : Prop := ∀ x, o.var? = some x → x ∉ names

theorem Path.Alike.read (h : p.Alike slack q) (ho : Avoids slack.unused o) :
    ReadAlike p o q o := by
  cases o with
  | literal l => rfl
  | var name =>
      unfold ReadAlike readOperand
      rcases h.var?_cases (ho name rfl) with ⟨hp, hq⟩ | ⟨v, w, hp, hq, hvw⟩
      · simp only [hp, hq]
      · simp only [hp, hq, (Variable.bare_eq_iff.1 hvw).2.1]

theorem tandem_operand (h : ReadAlike p o q o') :
    Tandem (operand o) p (operand o') q fun a p' b q' => a = b ∧ p' = p ∧ q' = q := by
  intro ws ws'
  obtain ⟨vs, hx⟩ := outcome_operand o ⟨p, ws⟩
  obtain ⟨vs', hy⟩ := outcome_operand o' ⟨q, ws'⟩
  rw [hx, hy]
  have hlift := Tandem.lift (p := p) (q := q) h vs vs'
  rw [outcome_lift, outcome_lift] at hlift
  exact hlift

/-- Reading a value on one side makes no difference. -/
theorem Exec.Tandem.operand_left {α β : Type} {f : Value → Exec α} {y : Exec β}
    {post : α → Path → β → Path → Prop} (hv : readOperand p o = .ok value)
    (h : Tandem (f value) p y q post) : Tandem (operand o >>= f) p y q post := by
  intro ws ws'
  obtain ⟨vs, hx⟩ := outcome_operand o ⟨p, ws⟩
  rw [hv] at hx
  rw [outcome_bind_ok hx]
  exact h vs ws'

theorem tandem_numericOperand (h : ReadAlike p o q o') :
    Tandem (numericOperand o) p (numericOperand o') q fun a p' b q' =>
      a = b ∧ p' = p ∧ q' = q := by
  refine (tandem_operand h).bind ?_
  rintro v p _ q ⟨rfl, rfl, rfl⟩
  cases v with
  | number range => exact .pure ⟨rfl, rfl, rfl⟩
  | string range => exact .mistake _ _

/-! ## Assignments -/

/-- The second path is the first after a value was written to a variable. -/
structure Path.Writes (target : String) (value : Value) (p p' : Path) : Prop where
  written : ∃ v, p'.var? target = some v ∧ v.type = value.type ∧ v.value = value ∧
    v.defined = true ∧ v.relations = []
  others : ∀ x, x ≠ target → p'.var? x = p.var? x

theorem var?_modifyVar_of_ne {x : String} (hx : x ≠ target) (f : Variable → Variable) :
    (p.modifyVar target f).var? x = p.var? x := by
  simp only [Path.modifyVar, Path.var?, Scopes.get?_modify, if_neg hx.symm]

theorem var?_insertVar_of_ne {x : String} (hx : x ≠ target) (v : Variable) :
    (p.insertVar target v).var? x = p.var? x := by
  simp only [Path.insertVar, Path.var?, Scopes.get?_insert, if_neg hx.symm]

theorem get?_relate_of_ne {s : Scopes} {op : RelOp} {source x : String} (hx : x ≠ target)
    (hs : x ≠ source) : (s.relate target op source).get? x = s.get? x := by
  unfold Scopes.relate
  split
  · rfl
  · split
    · rw [Scopes.get?_modify, if_neg hs.symm, Scopes.get?_modify, if_neg hx.symm]
    · rfl

/-- How a write moves a variable makes no difference. -/
theorem tandem_assign (h : p.Alike slack q) (ht : target ∉ slack.unused) (value : Value)
    (change change' : Trend) :
    Tandem (assign target value change) p (assign target value change') q fun _ p' _ q' =>
      p'.Alike slack q' ∧ Path.Writes target value p p' := by
  refine Tandem.path.bind ?_
  rintro _ p _ q ⟨rfl, rfl, rfl, rfl⟩
  rcases h.var?_cases ht with ⟨hp, hq⟩ | ⟨v, w, hp, hq, hvw⟩
  · simp only [hp, hq]
    refine (Tandem.modifyPath _ _).imp ?_
    rintro _ _ _ _ ⟨rfl, rfl⟩
    refine ⟨h.insertVar ht (Variable.bare_write rfl _ _ _) (.of_nil rfl), ⟨?_, fun x hx =>
      var?_insertVar_of_ne hx _⟩⟩
    refine ⟨_, by rw [Path.insertVar, Path.var?, Scopes.get?_insert, if_pos rfl], ?_⟩
    rw [show Scopes.get? _ target = none from hp]
    exact ⟨rfl, rfl, rfl, rfl⟩
  · simp only [hp, hq]
    have htype := (Variable.bare_eq_iff.1 hvw).1
    rw [htype]
    split
    · rename_i hfits
      refine (Tandem.modifyPath _ _).imp ?_
      rintro _ _ _ _ ⟨rfl, rfl⟩
      refine ⟨h.modifyVar ht (fun v w hvw => Variable.bare_write hvw _ _ _)
        (fun _ _ => .of_nil rfl) fun _ => rfl, ⟨?_, fun x hx => var?_modifyVar_of_ne hx _⟩⟩
      refine ⟨v.write value change, ?_, htype.trans hfits, rfl, rfl, rfl⟩
      rw [Path.modifyVar, Path.var?, Scopes.get?_modify, if_pos rfl]
      show Option.map _ (Scopes.get? _ target) = _
      rw [show Scopes.get? _ target = some v from hp]
      rfl
    · exact .mistake _ _

/-- Copies of one variable. -/
theorem tandem_copy {source : String} (h : p.Alike slack q) (ht : target ∉ slack.unused)
    (hs : source ∉ slack.unused) :
    Tandem (executeAssign target (.var source)) p (executeAssign target (.var source)) q
      fun _ p' _ q' => p'.Alike slack q' ∧
        ∀ x, x ≠ target → x ≠ source → p'.var? x = p.var? x := by
  have hread : ReadAlike p (.var source) q (.var source) :=
    h.read fun x hx => Option.some.inj hx ▸ hs
  unfold executeAssign
  split
  · refine .warn_left _ (.warn_right _ ((tandem_operand hread).bind ?_))
    rintro v p _ q ⟨rfl, rfl, rfl⟩
    refine (tandem_assign h ht v _ _).imp ?_
    rintro _ p' _ q' ⟨h', hw⟩
    exact ⟨h', fun x hx _ => hw.others x hx⟩
  · refine (tandem_operand hread).bind ?_
    rintro v p _ q ⟨rfl, rfl, rfl⟩
    refine Tandem.path.bind ?_
    rintro _ p _ q ⟨rfl, rfl, rfl, rfl⟩
    refine (tandem_assign h ht v _ _).bind ?_
    rintro _ p' _ q' ⟨h', hw⟩
    refine (Tandem.modifyPath _ _).imp ?_
    rintro _ _ _ _ ⟨rfl, rfl⟩
    refine ⟨h'.relate ht hs .eq, fun x hx hs => ?_⟩
    rw [← hw.others x hx]
    exact get?_relate_of_ne hx hs

theorem executeAssign_literal (target : String) (l : Literal) :
    executeAssign target (.literal l) = (do
      let same := ((← path).var? target).any fun old =>
        old.defined && old.value.isDeterminate && old.value == .ofLiteral l
      assign target (.ofLiteral l) (if same then .unchanged else .unpredictable)) := by
  unfold executeAssign
  rw [if_neg (by simp [Operand.reads, Operand.var?])]
  simp only [operand, pure_bind, bind_pure_unit]

/-- A constant is stored on both sides, or on one side and what has its value on the
other. -/
theorem tandem_store {l : Literal} (h : p.Alike slack q) (ht : target ∉ slack.unused)
    (hr : ReadAlike p o q (.literal l)) (ho : o.reads target = true ∨ o = .literal l) :
    Tandem (executeAssign target o) p (executeAssign target (.literal l)) q fun _ p' _ q' =>
      p'.Alike slack q' ∧ Path.Writes target (.ofLiteral l) p p' := by
  rw [executeAssign_literal]
  rcases ho with ho | rfl
  · have hread : readOperand p o = .ok (.ofLiteral l) := by
      unfold ReadAlike at hr
      cases hp : readOperand p o with
      | ok v =>
          rw [hp] at hr
          exact congrArg Except.ok (Option.some.inj hr)
      | error e =>
          rw [hp] at hr
          exact absurd hr (by simp [Except.toOption, readOperand])
    unfold executeAssign
    rw [if_pos ho]
    exact .warn_left _ (.operand_left hread (.path_right (tandem_assign h ht _ _ _)))
  · rw [executeAssign_literal]
    refine Tandem.path.bind ?_
    rintro _ p _ q ⟨rfl, rfl, rfl, rfl⟩
    exact tandem_assign h ht _ _ _

/-- An operation on constants is carried out on one side, and its result is stored on the
other. -/
theorem tandem_folded {op : ArithOp} {lhs rhs : Operand} {a b : Value} {l : Literal}
    (h : p.Alike slack q) (ht : target ∉ slack.unused) (ha : readOperand p lhs = .ok a)
    (hb : readOperand p rhs = .ok b)
    (hl : a.apply op b = .ok (.ofLiteral l)) :
    Tandem (executeEvaluate target op lhs rhs) p (executeAssign target (.literal l)) q
      fun _ p' _ q' => p'.Alike slack q' ∧ Path.Writes target (.ofLiteral l) p p' := by
  rw [executeAssign_literal]
  refine .operand_left ha (.operand_left hb (.warn_if_left (.warn_if_left (.path_right ?_))))
  rw [hl]
  exact tandem_assign h ht _ _ _

/-- Operations whose operands are read alike. -/
theorem tandem_executeEvaluate {op : ArithOp} {lhs lhs' rhs rhs' : Operand}
    (h : p.Alike slack q) (ht : target ∉ slack.unused) (hl : ReadAlike p lhs q lhs')
    (hr : ReadAlike p rhs q rhs') :
    Tandem (executeEvaluate target op lhs rhs) p (executeEvaluate target op lhs' rhs') q
      fun _ p' _ q' => p'.Alike slack q' ∧ ∀ x, x ≠ target → p'.var? x = p.var? x := by
  refine (tandem_operand hl).bind ?_
  rintro a p _ q ⟨rfl, rfl, rfl⟩
  refine (tandem_operand hr).bind ?_
  rintro b p _ q ⟨rfl, rfl, rfl⟩
  refine .warn_if_left (.warn_if_right (.warn_if_left (.warn_if_right ?_)))
  refine (Tandem.lift rfl).bind ?_
  rintro v p _ q ⟨rfl, rfl, rfl⟩
  refine (tandem_assign h ht v _ _).imp ?_
  rintro _ p' _ q' ⟨h', hw⟩
  exact ⟨h', hw.others⟩

/-! ## Input and output, declarations -/

theorem tandem_print (h : p.Alike slack q) (hr : ReadAlike p o q o') :
    Tandem (do let _ ← operand o) p (do let _ ← operand o') q
      fun _ p' _ q' => p'.Alike slack q' ∧ p' = p := by
  refine (tandem_operand hr).bind ?_
  rintro a p _ q ⟨rfl, rfl, rfl⟩
  exact .pure ⟨h, rfl⟩

theorem tandem_declare {name : String} (h : p.Alike slack q) (hn : name ∉ slack.unused)
    (type : ValueType) :
    Tandem (modifyPath (·.insertVar name (.declared type))) p
      (modifyPath (·.insertVar name (.declared type))) q
      fun _ p' _ q' => p'.Alike slack q' ∧ ∀ x, x ≠ name → p'.var? x = p.var? x := by
  refine (Tandem.modifyPath _ _).imp ?_
  rintro _ _ _ _ ⟨rfl, rfl⟩
  exact ⟨h.insertVar hn rfl (.of_nil rfl), fun x hx => var?_insertVar_of_ne hx _⟩

theorem tandem_input {resolve resolve' : String → Option BlockId} {node' : String}
    (h : p.Alike slack q) (ht : target ∉ slack.unused) :
    Tandem (execute resolve node (.input target)) p (execute resolve' node' (.input target)) q
      fun _ p' _ q' => p'.Alike slack q' ∧ ∀ x, x ≠ target → p'.var? x = p.var? x := by
  refine Tandem.path.bind ?_
  rintro _ p _ q ⟨rfl, rfl, rfl, rfl⟩
  have htype : ((p.var? target).map Variable.type).getD .double =
      ((q.var? target).map Variable.type).getD .double := by
    rcases h.var?_cases ht with ⟨hp, hq⟩ | ⟨v, w, hp, hq, hvw⟩
    · rw [hp, hq]
    · simp only [hp, hq, Option.map_some, (Variable.bare_eq_iff.1 hvw).1]
  dsimp only
  rw [htype]
  refine (tandem_assign h ht _ _ _).imp ?_
  rintro _ p' _ q' ⟨h', hw⟩
  exact ⟨h', hw.others⟩

/-! ## The stack -/

theorem tandem_push (h : p.Alike slack q) (ho : Avoids slack.unused o) :
    Tandem (executePush o) p (executePush o) q
      fun _ p' _ q' => p'.Alike slack q' ∧ p'.vars = p.vars := by
  cases o with
  | literal l =>
      unfold executePush
      refine (Tandem.modifyPath _ _).imp ?_
      rintro _ _ _ _ ⟨rfl, rfl⟩
      exact ⟨h.withStack (h.stack.push (.value none rfl (.of_nil rfl))), rfl⟩
  | var name =>
      refine Tandem.path.bind ?_
      rintro _ p _ q ⟨rfl, rfl, rfl, rfl⟩
      have hn := ho name rfl
      rcases h.var?_cases hn with ⟨hp, hq⟩ | ⟨v, w, hp, hq, hvw⟩
      · simp only [hp, hq]
        exact .mistake _ _
      · simp only [hp, hq]
        refine (Tandem.modifyPath _ _).imp ?_
        rintro _ _ _ _ ⟨rfl, rfl⟩
        exact ⟨h.withStack (h.stack.push (.value (some name) hvw (h.clear name v hn hp))), rfl⟩

/-- A variable that is only passed on may be pushed as its value. -/
theorem tandem_pass {name : String} {l : Literal} {v : Variable} (h : p.Alike slack q)
    (hn : name ∈ slack.passed) (hv : p.var? name = some v)
    (htype : v.type = (Value.ofLiteral l).type)
    (hvalue : v.value = .ofLiteral l) (hdefined : v.defined = true) :
    Tandem (executePush (.var name)) p (executePush (.literal l)) q
      fun _ p' _ q' => p'.Alike slack q' ∧ p'.vars = p.vars := by
  intro ws ws'
  simp only [executePush]
  rw [outcome_bind_ok (outcome_path _)]
  simp only [hv]
  exact .ok ⟨h.withStack (h.stack.push (.passed hn htype hvalue hdefined)), rfl⟩

theorem tandem_pushState {resolve resolve' : String → Option BlockId} {node' block : String}
    (h : p.Alike slack q) (hblock : resolve block = resolve' block)
    (hlead : ∀ id, resolve block = some id → slack.leads id id) :
    Tandem (execute resolve node (.pushState block)) p
      (execute resolve' node' (.pushState block)) q
      fun _ p' _ q' => p'.Alike slack q' ∧ p'.vars = p.vars := by
  simp only [execute, ← hblock]
  cases hid : resolve block with
  | none => exact .mistake _ _
  | some id =>
      refine (Tandem.modifyPath _ _).imp ?_
      rintro _ _ _ _ ⟨rfl, rfl⟩
      exact ⟨h.withStack (h.stack.push (.marker (hlead id hid))), rfl⟩

/-- A value that is not restored is assigned, and defined as it was. -/
theorem tandem_reassign {name : String} {v w : Variable} (h : p.Alike slack q)
    (hn : name ∉ slack.unused) (hvalue : v.value = w.value) (hdefined : v.defined = w.defined) :
    Tandem (do
        assign name v.value .unpredictable
        modifyPath (·.modifyVar name fun u => { u with defined := v.defined })) p
      (do
        assign name w.value .unpredictable
        modifyPath (·.modifyVar name fun u => { u with defined := w.defined })) q
      fun _ p' _ q' => p'.Alike slack q' ∧ ∀ x, name ≠ x → p'.var? x = p.var? x := by
  rw [hvalue, hdefined]
  refine (tandem_assign h hn _ _ _).bind ?_
  rintro _ p' _ q' ⟨h', hw⟩
  refine (Tandem.modifyPath _ _).imp ?_
  rintro _ _ _ _ ⟨rfl, rfl⟩
  refine ⟨h'.modifyVar hn (fun u u' hu => ?_) (fun u hu => hu) fun _ => rfl, fun x hx => ?_⟩
  · rw [Variable.bare_eq_iff] at hu ⊢
    simp [hu]
  · rw [var?_modifyVar_of_ne hx.symm, hw.others x hx.symm]

/-- A slot is popped alike, unless it is popped into a variable that is only passed
on. -/
theorem tandem_pop {node' : String} {target : Option String} (h : p.Alike slack q)
    (ht : ∀ name, target = some name → name ∉ slack.passed ∧ name ∉ slack.unused) :
    Tandem (executePop node target) p (executePop node' target) q
      fun _ p' _ q' => p'.Alike slack q' ∧ ∀ x, target ≠ some x → p'.var? x = p.var? x := by
  refine Tandem.path.bind ?_
  rintro _ p _ q ⟨rfl, rfl, rfl, rfl⟩
  refine (Tandem.modifyPath _ _).bind ?_
  rintro _ _ _ _ ⟨rfl, rfl⟩
  have hpop : Path.Alike slack { p with stack := p.stack.pop } { q with stack := q.stack.pop } :=
    h.withStack h.stack.pop
  have hassign : ∀ {name : String} {v w : Variable}, name ∉ slack.unused → v.value = w.value →
      v.defined = w.defined → Tandem _ _ _ _ fun _ p' _ q' =>
        p'.Alike slack q' ∧ ∀ x, some name ≠ some x → p'.var? x = p.var? x :=
    fun hn hvalue hdefined => (tandem_reassign hpop hn hvalue hdefined).imp
      fun _ _ _ _ h' => ⟨h'.1, fun x hx => h'.2 x (by simpa using hx)⟩
  obtain ⟨l, hl⟩ : ∃ l, p.stack.entries = l := ⟨_, rfl⟩
  obtain ⟨l', hl'⟩ : ∃ l', q.stack.entries = l' := ⟨_, rfl⟩
  have hstack : List.Forall₂ (StackEntry.Alike slack) l l' := hl ▸ hl' ▸ h.stack
  simp only [Stack.top?, hl, hl']
  cases hstack with
  | nil => exact .throw rfl
  | cons he _ =>
      simp only [List.head?_cons]
      cases he with
      | marker hl => exact .throw rfl
      | value source hvw hc =>
          cases target with
          | none => exact .pure ⟨hpop, fun _ _ => rfl⟩
          | some name =>
              have hvw' := Variable.bare_eq_iff.1 hvw
              dsimp only
              split
              · refine (Tandem.modifyPath _ _).imp ?_
                rintro _ _ _ _ ⟨rfl, rfl⟩
                refine ⟨hpop.insertVar (ht name rfl).2 hvw hc, fun x hx => ?_⟩
                rw [var?_insertVar_of_ne (by simpa using Ne.symm hx)]
                rfl
              · exact hassign (ht name rfl).2 hvw'.2.1 hvw'.2.2.1
      | passed hn htype hvalue hdefined =>
          cases target with
          | none => exact .pure ⟨hpop, fun _ _ => rfl⟩
          | some name =>
              rename_i source _ _
              have hne : source ≠ name := by
                rintro rfl
                exact (ht source rfl).1 hn
              dsimp only
              rw [if_neg (by simpa using hne), if_neg (by simp)]
              exact hassign (ht name rfl).2 hvalue hdefined

/-! ## Arrays -/

theorem tandem_arrayNamed (h : p.Alike slack q) (name : String) :
    Tandem (arrayNamed name) p (arrayNamed name) q fun a p' b q' =>
      a = b ∧ p' = p ∧ q' = q := by
  refine Tandem.path.bind ?_
  rintro _ p _ q ⟨rfl, rfl, rfl, rfl⟩
  rw [h.arrays]
  cases q.arrays.get? name with
  | none => exact .mistake _ _
  | some a => exact .pure ⟨rfl, rfl, rfl⟩

theorem tandem_warnOverflow (array : String) (index : Interval Double) (range : IndexRange) :
    Tandem (warnOverflow array index range) p (warnOverflow array index range) q
      fun _ p' _ q' => p' = p ∧ q' = q := by
  unfold warnOverflow
  split
  · exact fun _ _ => .ok ⟨rfl, rfl⟩
  · exact .pure ⟨rfl, rfl⟩

theorem tandem_executeDeclareArray (h : p.Alike slack q) (hr : ReadAlike p o q o')
    (name : String) (type : ValueType) :
    Tandem (executeDeclareArray name type o) p (executeDeclareArray name type o') q
      fun _ p' _ q' => p'.Alike slack q' ∧ p'.vars = p.vars := by
  refine (tandem_numericOperand hr).bind ?_
  rintro size p _ q ⟨rfl, rfl, rfl⟩
  refine (Tandem.lift rfl).bind ?_
  rintro a p _ q ⟨rfl, rfl, rfl⟩
  refine .warn_if_left (.warn_if_right ((Tandem.modifyPath _ _).imp ?_))
  rintro _ _ _ _ ⟨rfl, rfl⟩
  refine ⟨?_, rfl⟩
  rw [h.arrays]
  exact h.withArrays _

theorem tandem_executeReadArray (h : p.Alike slack q) (ht : target ∉ slack.unused)
    (hr : ReadAlike p o q o')
    (array : String) :
    Tandem (executeReadArray target array o) p (executeReadArray target array o') q
      fun _ p' _ q' => p'.Alike slack q' ∧ ∀ x, x ≠ target → p'.var? x = p.var? x := by
  refine (tandem_numericOperand hr).bind ?_
  rintro place p _ q ⟨rfl, rfl, rfl⟩
  refine (tandem_arrayNamed h array).bind ?_
  rintro a p _ q ⟨rfl, rfl, rfl⟩
  refine (Tandem.lift rfl).bind ?_
  rintro range p _ q ⟨rfl, rfl, rfl⟩
  refine (tandem_warnOverflow array place range).bind ?_
  rintro _ p _ q ⟨rfl, rfl⟩
  have hdone : Tandem (assign target (a.read range).1 .unpredictable) p
      (assign target (a.read range).1 .unpredictable) q
      fun _ p' _ q' => p'.Alike slack q' ∧ ∀ x, x ≠ target → p'.var? x = p.var? x :=
    (tandem_assign h ht _ _ _).imp fun _ _ _ _ hw => ⟨hw.1, hw.2.others⟩
  dsimp only
  split
  · exact hdone
  · exact .warn_left _ (.warn_right _ hdone)

theorem tandem_executeWriteArray {index index' : Operand} (h : p.Alike slack q)
    (hi : ReadAlike p index q index') (hr : ReadAlike p o q o') (array : String) :
    Tandem (executeWriteArray array index o) p (executeWriteArray array index' o') q
      fun _ p' _ q' => p'.Alike slack q' ∧ p'.vars = p.vars := by
  refine (tandem_numericOperand hi).bind ?_
  rintro place p _ q ⟨rfl, rfl, rfl⟩
  refine (tandem_operand hr).bind ?_
  rintro v p _ q ⟨rfl, rfl, rfl⟩
  refine (tandem_arrayNamed h array).bind ?_
  rintro a p _ q ⟨rfl, rfl, rfl⟩
  have hrest : Tandem (do
        let range ← lift (a.checkIndex place)
        modifyPath fun p => { p with arrays := p.arrays.insert array (a.write range v) }
        warnOverflow array place range) p
      (do
        let range ← lift (a.checkIndex place)
        modifyPath fun p => { p with arrays := p.arrays.insert array (a.write range v) }
        warnOverflow array place range) q
      fun _ p' _ q' => p'.Alike slack q' ∧ p'.vars = p.vars := by
    refine (Tandem.lift rfl).bind ?_
    rintro range p _ q ⟨rfl, rfl, rfl⟩
    refine (Tandem.modifyPath _ _).bind ?_
    rintro _ _ _ _ ⟨rfl, rfl⟩
    refine (tandem_warnOverflow array place range).imp ?_
    rintro _ _ _ _ ⟨rfl, rfl⟩
    refine ⟨?_, rfl⟩
    rw [h.arrays]
    exact h.withArrays _
  dsimp only
  split
  · exact .bind (.mistake _ _) fun _ _ _ _ h => absurd h id
  · exact hrest

/-! ## Leaving a block -/

/-- Ways on which alike paths leave a block for blocks that correspond. -/
def SidesAlike (slack : Slack) : List Side → List Side → Prop :=
  List.Forall₂ fun s t => slack.leads s.1 t.1 ∧ s.2.Alike slack t.2

theorem tandem_goTo {i j : BlockId} (h : p.Alike slack q) (hij : slack.leads i j) :
    Tandem (goTo i) p (goTo j) q fun sides _ sides' _ => SidesAlike slack sides sides' :=
  fun _ _ => .ok (.cons ⟨hij, h⟩ .nil)

theorem tandem_returnToCaller (h : p.Alike slack q) (result : Option Value)
    (unmarked unmarked' : Defect) :
    Tandem (returnToCaller result unmarked) p (returnToCaller result unmarked') q
      fun site p' site' q' => slack.leads site site' ∧ p'.Alike slack q' := by
  refine Tandem.path.bind ?_
  rintro _ p _ q ⟨rfl, rfl, rfl, rfl⟩
  rcases h.stack.unwind? with ⟨hp, hq⟩ | ⟨block, u, u', hp, hq, hlead, hu⟩
  · simp only [hp, hq]
    exact .throw rfl
  · simp only [hp, hq]
    refine (Tandem.modifyPath _ _).bind ?_
    rintro _ _ _ _ ⟨rfl, rfl⟩
    refine .pure ⟨hlead, h.withStack ?_⟩
    cases result with
    | none => exact hu
    | some v => exact hu.push (.value none rfl (.of_nil rfl))

theorem tandem_takeReturn {node' : String} {value value' : Option Operand}
    (h : p.Alike slack q)
    (hr : Option.Rel (fun o o' => ReadAlike p o q o') value value') :
    Tandem (takeReturn node value) p (takeReturn node' value') q fun sides _ sides' _ =>
      SidesAlike slack sides sides' := by
  have hread : Tandem (value.mapM operand) p (value'.mapM operand) q fun a p' b q' =>
      a = b ∧ p' = p ∧ q' = q := by
    cases hr with
    | none => exact .pure ⟨rfl, rfl, rfl⟩
    | some ho =>
        refine (tandem_operand ho).bind ?_
        rintro v p _ q ⟨rfl, rfl, rfl⟩
        exact .pure ⟨rfl, rfl, rfl⟩
  refine hread.bind ?_
  rintro result p _ q ⟨rfl, rfl, rfl⟩
  refine (tandem_returnToCaller h result _ _).bind ?_
  rintro site p site' q ⟨hsite, h⟩
  exact tandem_goTo h hsite

/-! ## Branches -/

variable {test : Comparison}

/-- None of the operands of the test is one of the variables. -/
def TestAvoids (names : List String) (test : Comparison) : Prop :=
  Avoids names test.lhs ∧ Avoids names test.rhs

theorem Path.Alike.readTest_eq (h : p.Alike slack q) (ht : TestAvoids slack.unused test) :
    (readTest p test).toOption = (readTest q test).toOption := by
  have hl := h.read ht.1
  have hr := h.read ht.2
  unfold ReadAlike at hl hr
  unfold readTest
  cases hp : readOperand p test.lhs <;> cases hq : readOperand q test.lhs <;>
    cases hp' : readOperand p test.rhs <;> cases hq' : readOperand q test.rhs <;>
    simp_all [Except.toOption]

theorem Path.Alike.judged_eq (h : p.Alike slack q) (ht : TestAvoids slack.unused test) :
    (judged p test).toOption = (judged q test).toOption := by
  have hknown : knownRelation? p test = knownRelation? q test := by
    unfold knownRelation?
    split
    · rename_i a b ha hb
      exact h.relation_eq (ht.1 a (by rw [ha]; rfl)) b
    · rfl
  have hread := h.readTest_eq ht
  unfold judged judgedWith
  rw [hknown]
  cases hp : readTest p test <;> cases hq : readTest q test <;> simp_all [Except.toOption]

theorem tandem_decideTest (h : p.Alike slack q) (ht : TestAvoids slack.unused test) :
    Tandem (decideTest test) p (decideTest test) q fun a p' b q' =>
      a = b ∧ p' = p ∧ q' = q := by
  intro ws ws'
  obtain ⟨vs, hx⟩ := outcome_decideTest test ⟨p, ws⟩
  obtain ⟨vs', hy⟩ := outcome_decideTest test ⟨q, ws'⟩
  rw [hx, hy]
  have hlift := Tandem.lift (p := p) (q := q) (h.judged_eq ht) vs vs'
  rw [outcome_lift, outcome_lift] at hlift
  exact hlift

theorem Path.Alike.narrow (h : p.Alike slack q) (ho : Avoids slack.unused o) (value : Value) :
    (narrowOperand p o value).Alike slack (narrowOperand q o value) := by
  cases o with
  | literal l => exact h
  | var name =>
      refine h.modifyVar (ho name rfl) (fun v w hvw => ?_) (fun v hv => hv) fun _ => rfl
      rw [Variable.bare_eq_iff] at hvw ⊢
      simp [hvw]

/-- Alike paths are narrowed alike. -/
theorem Path.Alike.narrowedTo_cases (h : p.Alike slack q) (ht : TestAvoids slack.unused test) :
    ((∃ e, narrowedTo p test = .error e) ∧ ∃ e, narrowedTo q test = .error e) ∨
      ∃ possible p' q', narrowedTo p test = .ok (possible, p') ∧
        narrowedTo q test = .ok (possible, q') ∧ p'.Alike slack q' := by
  have hread := h.readTest_eq ht
  unfold narrowedTo
  cases hp : readTest p test with
  | error e =>
      cases hq : readTest q test with
      | error e' => exact .inl ⟨⟨e, rfl⟩, e', rfl⟩
      | ok v => simp [hp, hq, Except.toOption] at hread
  | ok v =>
      obtain ⟨a, b⟩ := v
      obtain hq : readTest q test = .ok (a, b) := by
        cases hq : readTest q test <;> simp_all [Except.toOption]
      rw [hq]
      dsimp only
      cases a.clip test.op b with
      | error e => exact .inl ⟨⟨e, rfl⟩, e, rfl⟩
      | ok left =>
          cases b.clip test.op.flip a with
          | error e => exact .inl ⟨⟨e, rfl⟩, e, rfl⟩
          | ok right =>
              dsimp only
              split
              · exact .inr ⟨false, _, _, rfl, rfl, h.vars, h.clear, h.typed, h.stack, h.arrays,
                  h.visits⟩
              · refine .inr ⟨true, _, _, rfl, rfl, ?_⟩
                have hnarrow := (h.narrow ht.1 left).narrow ht.2 right
                unfold relateOperands
                split
                · rename_i a b ha hb
                  exact hnarrow.relate (ht.1 a (by rw [ha]; rfl)) (ht.2 b (by rw [hb]; rfl)) _
                · exact hnarrow

theorem tandem_sideOf {node' : String} {i j : BlockId} (h : p.Alike slack q)
    (ht : TestAvoids slack.unused test) (hij : slack.leads i j) :
    Tandem (sideOf node test i) p (sideOf node' test j) q fun a p' b q' =>
      Option.Rel (fun s t => slack.leads s.1 t.1 ∧ s.2.Alike slack t.2) a b ∧
        p' = p ∧ q' = q := by
  intro ws ws'
  obtain ⟨vs, hx⟩ := outcome_sideOf node test i ⟨p, ws⟩
  obtain ⟨vs', hy⟩ := outcome_sideOf node' test j ⟨q, ws'⟩
  rw [hx, hy]
  dsimp only
  rcases h.fork.narrowedTo_cases ht with ⟨⟨e, hp⟩, e', hq⟩ | ⟨possible, p', q', hp, hq, h'⟩
  · rw [hp, hq]
    exact .error rfl
  · rw [hp, hq]
    refine .ok ⟨?_, rfl, rfl⟩
    cases possible with
    | false => exact .none
    | true => exact .some ⟨hij, (h'.assume_left node test).assume_right node' test⟩

theorem tandem_possibleSides {node' : String} (h : p.Alike slack q)
    {tests tests' : List (Comparison × BlockId)}
    (ht : List.Forall₂ (fun e e' => e'.1 = e.1 ∧ TestAvoids slack.unused e.1 ∧
      slack.leads e.2 e'.2) tests tests') :
    Tandem (possibleSides node tests) p (possibleSides node' tests') q fun sides p' sides' q' =>
      SidesAlike slack sides sides' ∧ p' = p ∧ q' = q := by
  unfold possibleSides
  induction ht with
  | nil => exact .pure ⟨.nil, rfl, rfl⟩
  | @cons e e' _ _ he _ ih =>
      obtain ⟨test, i⟩ := e
      obtain ⟨test', j⟩ := e'
      obtain ⟨rfl, hte, hij⟩ := he
      rw [List.filterMapM_cons, List.filterMapM_cons]
      refine (tandem_sideOf h hte hij).bind ?_
      rintro side p side' q ⟨hside, rfl, rfl⟩
      cases hside with
      | none => exact ih
      | some hside =>
          refine ih.bind ?_
          rintro sides p sides' q ⟨hsides, rfl, rfl⟩
          exact .pure ⟨.cons hside hsides, rfl, rfl⟩

variable {onTrue onFalse onTrue' onFalse' : BlockId}

/-- The ways on which an undecided test may be met. -/
theorem splitOf_alike (ht : TestAvoids slack.unused test) (htrue : slack.leads onTrue onTrue')
    (hfalse : slack.leads onFalse onFalse') :
    List.Forall₂ (fun e e' => e'.1 = e.1 ∧ TestAvoids slack.unused e.1 ∧ slack.leads e.2 e'.2)
      (splitOf test onTrue onFalse) (splitOf test onTrue' onFalse') := by
  unfold splitOf
  split
  · exact .cons ⟨rfl, ht, hfalse⟩ (.cons ⟨rfl, ht, hfalse⟩ (.cons ⟨rfl, ht, htrue⟩ .nil))
  · exact .cons ⟨rfl, ht, hfalse⟩ (.cons ⟨rfl, ht, htrue⟩ (.cons ⟨rfl, ht, htrue⟩ .nil))
  · exact .cons ⟨rfl, ht, hfalse⟩ (.cons ⟨rfl, ht, htrue⟩ .nil)

theorem tandem_takeBranch {node' : String} (h : p.Alike slack q)
    (ht : TestAvoids slack.unused test) (htrue : slack.leads onTrue onTrue')
    (hfalse : slack.leads onFalse onFalse') :
    Tandem (takeBranch node test onTrue onFalse) p (takeBranch node' test onTrue' onFalse') q
      fun sides _ sides' _ => SidesAlike slack sides sides' := by
  refine (tandem_decideTest h ht).bind ?_
  rintro verdict p _ q ⟨rfl, rfl, rfl⟩
  cases verdict with
  | must =>
      refine (Tandem.modifyPath _ _).bind ?_
      rintro _ _ _ _ ⟨rfl, rfl⟩
      exact tandem_goTo ((h.assume_left node test).assume_right node' test) htrue
  | cant =>
      refine (Tandem.modifyPath _ _).bind ?_
      rintro _ _ _ _ ⟨rfl, rfl⟩
      exact tandem_goTo ((h.assume_left _ _).assume_right _ _) hfalse
  | may =>
      exact (tandem_possibleSides h (splitOf_alike ht htrue hfalse)).imp
        fun _ _ _ _ hsides => hsides.1

/-- A branch that is decided runs in tandem with a jump. -/
theorem tandem_decided (taken : Bool) (h : p.Alike slack q) {target : BlockId}
    (hj : judged p test = .ok (if taken then .must else .cant))
    (hl : slack.leads (if taken then onTrue else onFalse) target) :
    Tandem (takeBranch node test onTrue onFalse) p (goTo target) q
      fun sides _ sides' _ => SidesAlike slack sides sides' := by
  intro ws ws'
  obtain ⟨vs, hx⟩ := outcome_decideTest test ⟨p, ws⟩
  rw [hj] at hx
  rw [takeBranch, outcome_bind_ok hx]
  cases taken with
  | true => exact tandem_goTo (h.assume_left node test) hl vs ws'
  | false => exact tandem_goTo (h.assume_left node test.negated) hl vs ws'

/-! ## Recursion -/

theorem tandem_skipCall {g g' : FlowGraph} {b b' : Block} (h : p.Alike slack q)
    (hresult : b.function.bind g.returnType? = b'.function.bind g'.returnType?) :
    Tandem (skipCall g b) p (skipCall g' b') q fun sides _ sides' _ =>
      SidesAlike slack sides sides' := by
  unfold skipCall
  rw [hresult]
  refine (tandem_returnToCaller h _ _ _).bind ?_
  rintro site p site' q ⟨hsite, h⟩
  refine (Tandem.modifyPath _ _).bind ?_
  rintro _ _ _ _ ⟨rfl, rfl⟩
  exact tandem_goTo h.clobber hsite

/-! ## Instructions and blocks -/

/-- An instruction that the slack does not touch. -/
structure Untouched (slack : Slack) (resolve resolve' : String → Option BlockId)
    (i : Instruction) : Prop where
  reads : ∀ o ∈ i.operands, Avoids slack.unused o
  writes : ∀ x, i.definedVariable = some x → x ∉ slack.unused
  restores : ∀ x, i = .pop (some x) → x ∉ slack.passed
  marks : ∀ name, i = .pushState name →
    resolve name = resolve' name ∧ ∀ id, resolve name = some id → slack.leads id id

/-- The variables that an instruction changes nothing about. -/
def Spares (i : Instruction) (x : String) : Prop :=
  i.definedVariable ≠ some x ∧ ∀ target, i ≠ .assign target (.var x)

variable {resolve resolve' : String → Option BlockId} {node' : String} {i : Instruction}

/-- **The same instruction** on alike paths. -/
theorem tandem_execute (h : p.Alike slack q) (hi : Untouched slack resolve resolve' i) :
    Tandem (execute resolve node i) p (execute resolve' node' i) q fun _ p' _ q' =>
      p'.Alike slack q' ∧ ∀ x, Spares i x → p'.var? x = p.var? x := by
  have hread : ∀ {o}, o ∈ i.operands → ReadAlike p o q o := fun ho => h.read (hi.reads _ ho)
  -- most instructions change one variable, or none
  have hone : ∀ {x : Exec Unit} {y : Exec Unit} {target : String},
      i.definedVariable = some target → Tandem x p y q (fun _ p' _ q' =>
        p'.Alike slack q' ∧ ∀ z, z ≠ target → p'.var? z = p.var? z) →
      Tandem x p y q fun _ p' _ q' =>
        p'.Alike slack q' ∧ ∀ z, Spares i z → p'.var? z = p.var? z := by
    intro x y target hd hxy
    refine hxy.imp fun _ p' _ q' hpq => ⟨hpq.1, fun z hz => hpq.2 z ?_⟩
    rintro rfl
    exact hz.1 hd
  have hnone : ∀ {x : Exec Unit} {y : Exec Unit}, Tandem x p y q (fun _ p' _ q' =>
        p'.Alike slack q' ∧ p'.vars = p.vars) →
      Tandem x p y q fun _ p' _ q' =>
        p'.Alike slack q' ∧ ∀ z, Spares i z → p'.var? z = p.var? z := by
    intro x y hxy
    exact hxy.imp fun _ p' _ q' hpq => ⟨hpq.1, fun z _ => by simp only [Path.var?, hpq.2]⟩
  cases i with
  | declare name type => exact hone rfl (tandem_declare h (hi.writes name rfl) type)
  | assign target value =>
      cases value with
      | literal l =>
          refine hone rfl ((tandem_store h (hi.writes target rfl)
            (show ReadAlike p (.literal l) q (.literal l) from rfl) (.inr rfl)).imp ?_)
          exact fun _ p' _ q' hw => ⟨hw.1, hw.2.others⟩
      | var source =>
          refine (tandem_copy h (hi.writes target rfl)
            (hi.reads _ List.mem_cons_self source rfl)).imp ?_
          refine fun _ p' _ q' hpq => ⟨hpq.1, fun z hz => hpq.2 z ?_ ?_⟩
          · rintro rfl
            exact hz.1 rfl
          · rintro rfl
            exact hz.2 target rfl
  | evaluate target op lhs rhs =>
      exact hone rfl (tandem_executeEvaluate h (hi.writes target rfl)
        (hread List.mem_cons_self) (hread (List.mem_cons_of_mem _ List.mem_cons_self)))
  | print value =>
      refine hnone ((tandem_print h (hread List.mem_cons_self)).imp ?_)
      exact fun _ p' _ q' hpq => ⟨hpq.1, by rw [hpq.2]⟩
  | input target => exact hone rfl (tandem_input h (hi.writes target rfl))
  | push value => exact hnone (tandem_push h (hi.reads _ List.mem_cons_self))
  | pushState block =>
      obtain ⟨hsame, hlead⟩ := hi.marks block rfl
      exact hnone (tandem_pushState h hsame hlead)
  | pop target =>
      refine (tandem_pop h fun name hn => ?_).imp fun _ p' _ q' hpq =>
        ⟨hpq.1, fun z hz => hpq.2 z hz.1⟩
      subst hn
      exact ⟨hi.restores name rfl, hi.writes name rfl⟩
  | declareArray name type size =>
      exact hnone (tandem_executeDeclareArray h (hread List.mem_cons_self) name type)
  | readArray target array index =>
      exact hone rfl (tandem_executeReadArray h (hi.writes target rfl)
        (hread List.mem_cons_self) array)
  | writeArray array index value =>
      exact hnone (tandem_executeWriteArray h (hread List.mem_cons_self)
        (hread (List.mem_cons_of_mem _ List.mem_cons_self)) array)
  | jumpIf test block => exact .throw rfl
  | jump block => exact .throw rfl
  | ret value => exact .throw rfl

/-- The same instructions on alike paths. -/
theorem tandem_executeAll {body : List Instruction} (h : p.Alike slack q)
    (hb : ∀ i ∈ body, Untouched slack resolve resolve' i) :
    Tandem (executeAll resolve node body) p (executeAll resolve' node' body) q
      fun _ p' _ q' => p'.Alike slack q' := by
  induction body generalizing p q with
  | nil => exact .pure h
  | cons i rest ih =>
      rw [executeAll_cons, executeAll_cons]
      refine (tandem_execute h (hb i List.mem_cons_self)).bind ?_
      rintro _ p' _ q' ⟨h', -⟩
      exact ih h' fun j hj => hb j (List.mem_cons_of_mem _ hj)

/-- Leaves a block. -/
def leaveBy (node : String) : Terminator → Exec (List Side)
  | .finish => return []
  | .jump target => goTo target
  | .branch test onTrue onFalse => takeBranch node test onTrue onFalse
  | .ret value => takeReturn node value

theorem runBlock_eq (g : FlowGraph) (b : Block) :
    runBlock g b = (executeAll g.idOf? b.name b.body >>= fun _ => leaveBy b.name b.terminator) := by
  unfold runBlock leaveBy
  rfl

/-- Terminators that lead alike paths to blocks that correspond. -/
inductive LeadsAlike (slack : Slack) : Terminator → Terminator → Prop where
  | finish : LeadsAlike slack .finish .finish
  | jump {i j : BlockId} (hij : slack.leads i j) : LeadsAlike slack (.jump i) (.jump j)
  | branch {test : Comparison} {onTrue onFalse onTrue' onFalse' : BlockId}
      (ht : TestAvoids slack.unused test) (htrue : slack.leads onTrue onTrue')
      (hfalse : slack.leads onFalse onFalse') :
      LeadsAlike slack (.branch test onTrue onFalse) (.branch test onTrue' onFalse')
  | ret {value : Option Operand} (hv : ∀ o ∈ value, Avoids slack.unused o) :
      LeadsAlike slack (.ret value) (.ret value)

/-- A terminator corresponds to itself, if its targets and the variables it reads do. -/
theorem LeadsAlike.refl {e : Terminator} (ht : ∀ t ∈ e.targets, slack.leads t t)
    (hr : ∀ x ∈ e.readNames, x ∉ slack.unused) : LeadsAlike slack e e := by
  cases e with
  | finish => exact .finish
  | jump target => exact .jump (ht target List.mem_cons_self)
  | branch test onTrue onFalse =>
      refine .branch ⟨fun x hx => hr x ?_, fun x hx => hr x ?_⟩ (ht onTrue List.mem_cons_self)
        (ht onFalse (List.mem_cons_of_mem _ List.mem_cons_self))
      · simp [Terminator.readNames, Comparison.readNames, hx]
      · simp [Terminator.readNames, Comparison.readNames, hx]
  | ret value =>
      refine .ret fun o ho x hx => hr x ?_
      obtain rfl : value = some o := ho
      simp [Terminator.readNames, hx]

theorem tandem_leaveBy {e e' : Terminator} (h : p.Alike slack q) (he : LeadsAlike slack e e') :
    Tandem (leaveBy node e) p (leaveBy node' e') q fun sides _ sides' _ =>
      SidesAlike slack sides sides' := by
  cases he with
  | finish => exact .pure .nil
  | jump hij => exact tandem_goTo h hij
  | branch ht htrue hfalse => exact tandem_takeBranch h ht htrue hfalse
  | @ret value hv =>
      refine tandem_takeReturn h ?_
      cases value with
      | none => exact .none
      | some o => exact .some (h.read (hv o rfl))

end Symbolic
end FlowVerifier
