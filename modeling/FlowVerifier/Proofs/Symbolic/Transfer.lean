import FlowVerifier.Proofs.Symbolic.Description
import FlowVerifier.Proofs.Symbolic.Tests

/-!
# Instructions on paths and in states

Where an instruction succeeds in a state that a path describes, it succeeds on the
path, and the path describes the state it leads to.

* `Exec.Yields` says that an execution succeeds, whatever warnings it raises.  It goes
  through an execution from part to part.
* `Answers` is what the theorem says of one instruction.  There is one lemma for each
  kind of instruction; most of them end in an assignment, `answers_assign`.
* `execute_describes` puts them together.

Two things are asked of the path.  The version of a variable that is written must not
be the largest, since the next one is zero, which makes relations current again that
are long outdated.  And a value that goes back into the variable it was pushed from
must be known to come from there, unless the variable is of its type anyway.
`execute_gaps` shows that either is needed, and that a state without NaN may lead to one
with it, which no path describes.
-/

namespace FlowVerifier

/-! ## States without NaN, and what a program finds -/

namespace Run

/-- No number of the state compares with nothing. -/
structure State.Ordered (s : State) : Prop where
  vars : ∀ name l, s.vars name = some l → l.isNaN = false
  stack : ∀ source l, .value source l ∈ s.stack → l.isNaN = false
  arrays : ∀ name c, s.arrays name = some c → ∀ i l, 0 ≤ i → i < c.size →
    c.element i = some l → l.isNaN = false

/-- Without arrays and with an empty stack, only the variables count. -/
theorem State.Ordered.of_vars {s : State} (hstack : s.stack = [])
    (harrays : s.arrays = fun _ => none) (h : ∀ name l, s.vars name = some l → l.isNaN = false) :
    s.Ordered :=
  ⟨h, fun _ _ hl => absurd hl (by simp [hstack]), fun _ _ hc => absurd hc (by simp [harrays])⟩

/-- Assignments are checked, and variables and elements hold values of their type
before they are written. -/
structure Environment.Typed (env : Environment) : Prop where
  checked : env.checked = true
  scalar : ∀ name type, ∃ l, env.scalar name type = some l ∧ l.type = type
  element : ∀ name type i l, env.element name type i = some l → l.type = type

end Run

open Run

namespace Symbolic

/-! ## Executions that succeed -/

namespace Exec

variable {α β : Type} {x : Exec α} {p : Path} {post : α → Path → Prop}

/-- The execution succeeds on the path, and result and path are as described. -/
def Yields (x : Exec α) (p : Path) (post : α → Path → Prop) : Prop :=
  ∀ ws, ∃ a q ws', outcome x ⟨p, ws⟩ = (.ok a, ⟨q, ws'⟩) ∧ post a q

namespace Yields

theorem pure {a : α} (h : post a p) : Yields (pure a) p post := fun ws => ⟨a, p, ws, rfl, h⟩

theorem bind {f : α → Exec β} {middle : α → Path → Prop} {last : β → Path → Prop}
    (hx : Yields x p middle) (hf : ∀ a q, middle a q → Yields (f a) q last) :
    Yields (x >>= f) p last := by
  intro ws
  obtain ⟨a, q, ws₁, hrun, ha⟩ := hx ws
  rw [outcome_bind_ok hrun]
  exact hf a q ha ws₁

theorem imp {other : α → Path → Prop} (hx : Yields x p post)
    (himp : ∀ a q, post a q → other a q) : Yields x p other := by
  intro ws
  obtain ⟨a, q, ws', hrun, ha⟩ := hx ws
  exact ⟨a, q, ws', hrun, himp a q ha⟩

theorem path : Yields path p fun a q => a = p ∧ q = p := fun ws => ⟨p, p, ws, rfl, rfl, rfl⟩

theorem modifyPath (f : Path → Path) : Yields (modifyPath f) p fun _ q => q = f p :=
  fun ws => ⟨(), f p, ws, rfl, rfl⟩

theorem warn (message : String) : Yields (warn message) p fun _ q => q = p :=
  fun ws => ⟨(), p, ws.push message, rfl, rfl⟩

theorem lift {r : Except ProgramError α} {a : α} (h : r = .ok a) :
    Yields (lift r) p fun b q => b = a ∧ q = p := by
  subst h
  exact fun ws => ⟨a, p, ws, rfl, rfl, rfl⟩

/-- A warning that may be raised before an execution makes no difference. -/
theorem warn_if {c : Prop} [Decidable c] {message : String} (hx : Yields x p post) :
    Yields (if c then Exec.warn message >>= fun _ => x else x) p post := by
  split
  · refine (warn message).bind ?_
    rintro - q rfl
    exact hx
  · exact hx

end Yields
end Exec

open Exec

/-! ## What is asked of a path -/

/-- All arrays of the path come about by the operations on arrays. -/
def Path.ArraysBuilt (p : Path) : Prop := ∀ name a, p.arrays.get? name = some a → a.Built

/-- What is related to a member of the second list is in the first. -/
theorem exists_of_mem_forall₂ {α β : Type} {R : α → β → Prop} {l : List α} {k : List β} {b : β}
    (h : List.Forall₂ R l k) (hb : b ∈ k) : ∃ a ∈ l, R a b := by
  induction h with
  | nil => exact absurd hb List.not_mem_nil
  | @cons a c l k hac _ ih =>
      rcases List.mem_cons.1 hb with rfl | hb
      · exact ⟨a, List.mem_cons_self, hac⟩
      · obtain ⟨a', ha', hr⟩ := ih hb
        exact ⟨a', List.mem_cons_of_mem _ ha', hr⟩

/-- A state that a path describes holds no NaN. -/
theorem Path.Describes.ordered {p : Path} {s : State} (h : p.Describes s) (hb : p.ArraysBuilt) :
    s.Ordered := by
  refine ⟨fun name l hl => ?_, fun source l hl => ?_, fun name c hc i l h₁ h₂ hl => ?_⟩
  · obtain ⟨v, -, hd⟩ := h.of_held hl
    exact Value.isNaN_of_contains hd.value
  · obtain ⟨e, -, he⟩ := exists_of_mem_forall₂ h.stack hl
    cases e with
    | value known v => exact Value.isNaN_of_contains (Variable.Describes.value he)
    | marker b => exact he.elim
  · obtain ⟨a, ha, hd⟩ := h.of_array hc
    obtain ⟨r, hr, hr₁, hr₂⟩ := hd.exists_run (hb name a ha).wellFormed h₁ h₂
    exact Value.isNaN_of_contains (hd.elements r hr i hr₁ hr₂ h₂ l hl)

/-- Where the topmost value was pushed from the variable, the path knows, or the
variable can be assigned the value. -/
def Path.CanRestore (p : Path) (s : State) (name : String) : Prop :=
  ∀ l rest, s.stack = .value (some name) l :: rest →
    (∃ v, p.stack.top? = some (.value (some name) v)) ∨
      ∀ old, s.vars name = some old → old.type = l.type

/-- An execution succeeds, and the path it leaves describes the state, if that is one
without NaN. -/
def Answers (x : Exec Unit) (p : Path) (s' : State) : Prop :=
  Yields x p fun _ q => q.ArraysBuilt ∧ (s'.Ordered → q.Describes s')

variable {env : Environment} {resolve : String → Option BlockId} {node target : String}
  {p q : Path} {s s' : State} {l m : Literal} {value : Value}

theorem answers_modifyPath {f : Path → Path} (hb : (f p).ArraysBuilt)
    (hd : s'.Ordered → (f p).Describes s') : Answers (modifyPath f) p s' :=
  (Yields.modifyPath f).imp fun _ _ hq => hq ▸ ⟨hb, hd⟩

/-! ## Operands -/

/-- An operand that can be read can be read on the path. -/
theorem readOperand_of_read (h : p.Describes s) {o : Operand} (hl : s.read o = .ok l) :
    ∃ v, readOperand p o = .ok v ∧ v.Allows l := by
  cases o with
  | literal k =>
      cases hl
      exact ⟨_, rfl, .inr rfl⟩
  | var name =>
      simp only [State.read] at hl
      split at hl
      · rename_i k hk
        cases hl
        obtain ⟨v, hv, hd⟩ := h.of_held hk
        exact ⟨v.value, by simp only [readOperand, hv], .inl hd.value⟩
      · exact absurd hl (by simp)

theorem yields_operand (h : p.Describes s) {o : Operand} (hl : s.read o = .ok l) :
    Yields (operand o) p fun v q => v.Allows l ∧ q = p := by
  obtain ⟨v, hv, ha⟩ := readOperand_of_read h hl
  intro ws
  obtain ⟨ws', hrun⟩ := outcome_operand o ⟨p, ws⟩
  refine ⟨v, p, ws', ?_, ha, rfl⟩
  rw [hrun, hv]
  rfl

theorem yields_numericOperand (h : p.Describes s) {o : Operand} {d : Double}
    (hd : s.readNumber o = .ok d) (hn : d.isNaN = false) :
    Yields (numericOperand o) p fun r q => r.contains d = true ∧ q = p := by
  obtain ⟨l, hl, hd⟩ := bind_eq_ok_iff.1 hd
  cases l with
  | string t => exact absurd hd (by simp [throw, throwThe, MonadExceptOf.throw])
  | number x =>
      cases hd
      refine (yields_operand h hl).bind ?_
      rintro v p ⟨hv, rfl⟩
      have hmem := hv.contains (l := .number d) hn
      cases v with
      | number r => exact .pure ⟨hmem, rfl⟩
      | string t => exact absurd hmem (by simp [Value.contains])

/-! ## Assignments -/

/-- What is known of a variable right after a write. -/
theorem describes_written {vars : Scopes} {held : String → Option Literal} (v : Variable)
    (change : Trend) (ht : v.type = l.type) (hl : value.contains l = true) :
    (v.write value change).Describes vars held l :=
  ⟨ht, hl, fun _ hr => absurd hr (by simp [Variable.write])⟩

/-- **Assignments.**  The value has to be of the type of the variable only if there is
one. -/
theorem answers_assign {change : Trend} (hb : p.ArraysBuilt) (h : p.Describes s)
    (hversion : p.CanAdvance target) (ht : value.type = l.type)
    (hl : l.isNaN = false → value.contains l = true)
    (hfits : ∀ old, s.vars target = some old → old.type = l.type) :
    Answers (assign target value change) p (s.bind target (some l)) := by
  refine Yields.path.bind ?_
  rintro _ p ⟨rfl, rfl⟩
  have hmem : (s.bind target (some l)).Ordered → value.contains l = true :=
    fun ho => hl (ho.vars target l (if_pos rfl))
  cases hold : s.vars target with
  | none =>
      have hv := h.var?_eq_none hold
      rw [hv]
      refine answers_modifyPath hb fun ho =>
        h.bind (describes_written (.declared value.type) change ht (hmem ho)) (fun other => ?_)
          (fun w hw => ?_) rfl rfl
      · show (p.vars.insert target _).get? other = _
        rw [Scopes.get?_insert, show p.vars.get? target = none from hv]
        rfl
      · rw [show p.vars.get? target = none from hv] at hw
        exact absurd hw (by simp)
  | some old =>
      obtain ⟨v, hv, hd⟩ := h.of_held hold
      have htype : v.type = l.type := hd.type.trans (hfits old hold)
      simp only [hv, if_pos (htype.trans ht.symm)]
      refine answers_modifyPath hb fun ho =>
        h.bind (describes_written v change htype (hmem ho)) (fun other => ?_) (fun w hw => ?_)
          rfl rfl
      · show (p.vars.modify target _).get? other = _
        rw [Scopes.get?_modify]
        split
        · rename_i heq
          subst heq
          rw [show p.vars.get? target = some v from hv]
          rfl
        · rfl
      · rw [show p.vars.get? target = some v from hv] at hw
        cases hw
        exact hversion.lt hv

/-- A checked write succeeds if the variable is of the type of the value. -/
theorem write_eq_ok (henv : env.Typed) (h : s.write env target l = .ok s') :
    s' = s.bind target (some l) ∧ ∀ old, s.vars target = some old → old.type = l.type := by
  unfold State.write at h
  split at h
  · rename_i old hold
    split at h
    · exact absurd h (by simp)
    · rename_i hok
      cases h
      refine ⟨rfl, fun old' hold' => ?_⟩
      rw [hold] at hold'
      cases hold'
      simpa [henv.checked] using hok
  · rename_i hnone
    cases h
    exact ⟨rfl, fun old hold => absurd (hnone ▸ hold) (by simp)⟩

theorem answers_declare (henv : env.Typed) {name : String} {type : ValueType}
    (hb : p.ArraysBuilt) (h : p.Describes s) (hversion : p.CanAdvance name) :
    Answers (modifyPath (·.insertVar name (.declared type))) p
      (s.bind name (env.scalar name type)) := by
  obtain ⟨l, hl, rfl⟩ := henv.scalar name type
  rw [hl]
  refine answers_modifyPath hb fun ho => ?_
  have hmem : (Value.full l.type).contains l = true :=
    Value.contains_full (ho.vars name l (if_pos rfl))
  exact h.insertVar hversion ⟨rfl, hmem, fun _ hr => absurd hr (by simp [Variable.declared])⟩

/-- A copy is known to equal what it was copied from. -/
theorem answers_executeAssign (henv : env.Typed) {o : Operand} (hb : p.ArraysBuilt)
    (h : p.Describes s) (hversion : p.CanAdvance target) (hl : s.read o = .ok l)
    (hs' : s.write env target l = .ok s') : Answers (executeAssign target o) p s' := by
  obtain ⟨rfl, hfits⟩ := write_eq_ok henv hs'
  unfold executeAssign
  split
  · refine (Yields.warn _).bind ?_
    rintro - p rfl
    refine (yields_operand h hl).bind ?_
    rintro v p ⟨hv, rfl⟩
    exact answers_assign hb h hversion hv.type hv.contains hfits
  · rename_i hreads
    refine (yields_operand h hl).bind ?_
    rintro v p ⟨hv, rfl⟩
    refine Yields.path.bind ?_
    rintro _ p ⟨rfl, rfl⟩
    refine (answers_assign hb h hversion hv.type hv.contains hfits).bind ?_
    rintro - q ⟨hq, hd⟩
    cases o with
    | literal k => exact .pure ⟨hq, hd⟩
    | var source =>
        refine answers_modifyPath hq fun ho => ?_
        have hne : source ≠ target := by simpa [Operand.reads, Operand.var?] using hreads
        have hsource : s.vars source = some l := by
          simp only [State.read] at hl
          split at hl
          · cases hl
            assumption
          · exact absurd hl (by simp)
        have htarget : (s.bind target (some l)).vars target = some l := if_pos rfl
        exact (hd ho).relate htarget ((if_neg hne).trans hsource)
          (RelOp.fold_eq_self (ho.vars target l htarget))

theorem fold_of_apply {op : ArithOp} {r : Literal} (h : State.apply op l m = .ok r) :
    op.fold l m = .ok r := by
  unfold State.apply at h
  split at h
  · cases h
    assumption
  · exact absurd h (by simp)

theorem answers_executeEvaluate (henv : env.Typed) {op : ArithOp} {lhs rhs : Operand}
    {r : Literal} (hb : p.ArraysBuilt) (h : p.Describes s) (hversion : p.CanAdvance target)
    (hl : s.read lhs = .ok l) (hm : s.read rhs = .ok m) (hr : State.apply op l m = .ok r)
    (hs' : s.write env target r = .ok s') :
    Answers (executeEvaluate target op lhs rhs) p s' := by
  obtain ⟨rfl, hfits⟩ := write_eq_ok henv hs'
  have hfold := fold_of_apply hr
  refine (yields_operand h hl).bind ?_
  rintro v p ⟨hv, rfl⟩
  refine (yields_operand h hm).bind ?_
  rintro w p ⟨hw, rfl⟩
  obtain ⟨u, hu, htype⟩ := Value.apply_eq_ok hv hw hfold
  refine .warn_if (.warn_if ((Yields.lift hu).bind ?_))
  rintro _ p ⟨rfl, rfl⟩
  exact answers_assign hb h hversion htype (fun hn => Value.contains_apply hv hw hfold hn hu) hfits

theorem answers_print {o : Operand} (hb : p.ArraysBuilt) (h : p.Describes s)
    (hl : s.read o = .ok l) :
    Answers (do let _ ← operand o) p { s with printed := s.printed ++ [l] } := by
  refine (yields_operand h hl).bind ?_
  rintro v p ⟨-, rfl⟩
  exact .pure ⟨hb, fun _ => ⟨h.scalars, h.arrays, h.stack⟩⟩

theorem answers_input (henv : env.Typed) (hb : p.ArraysBuilt) (h : p.Describes s)
    (hversion : p.CanAdvance target) (hs' : s.receive env target = .ok s') :
    Answers (execute resolve node (.input target)) p s' := by
  unfold State.receive at hs'
  split at hs'
  · rename_i l hl
    split at hs'
    · exact absurd hs' (by simp)
    · rename_i htype
      cases hs'
      have htype : l.type = ((s.vars target).map Literal.type).getD .double := by
        simpa [henv.checked] using htype
      have hknown : ((p.var? target).map Variable.type).getD .double = l.type := by
        rw [htype]
        cases hold : s.vars target with
        | none => rw [h.var?_eq_none hold]; rfl
        | some old =>
            obtain ⟨v, hv, hd⟩ := h.of_held hold
            rw [hv]
            exact hd.type
      refine Yields.path.bind ?_
      rintro _ p ⟨rfl, rfl⟩
      rw [hknown]
      refine (answers_assign hb h hversion (Value.type_full _) Value.contains_full ?_).imp ?_
      · intro old hold
        rw [htype, hold]
        rfl
      · rintro - q ⟨hq, hd⟩
        refine ⟨hq, fun ho => ?_⟩
        have hdesc := hd ⟨ho.vars, ho.stack, ho.arrays⟩
        exact ⟨hdesc.scalars, hdesc.arrays, hdesc.stack⟩
  · exact absurd hs' (by simp)

/-! ## The stack -/

theorem answers_push (henv : env.Typed) {o : Operand} (hb : p.ArraysBuilt)
    (h : p.Describes s) (hl : s.read o = .ok l) :
    Answers (executePush o) p (s.push (.value (if env.checked then o.var? else none) l)) := by
  cases o with
  | literal k =>
      obtain rfl : k = l := Except.ok.inj hl
      unfold executePush
      refine answers_modifyPath hb fun ho => ⟨h.scalars, h.arrays, .cons ?_ h.stack⟩
      have hallows : (Value.ofLiteral k).Allows k := .inr rfl
      exact ⟨hallows.type, hallows.contains (ho.stack _ k (List.mem_cons_self ..)),
        fun _ hr => absurd hr (by simp [Variable.ofValue])⟩
  | var name =>
      refine Yields.path.bind ?_
      rintro _ p ⟨rfl, rfl⟩
      simp only [State.read] at hl
      split at hl
      · rename_i k hk
        cases hl
        obtain ⟨v, hv, hd⟩ := h.of_held hk
        rw [hv, if_pos henv.checked]
        exact answers_modifyPath hb fun _ => ⟨h.scalars, h.arrays, .cons hd h.stack⟩
      · exact absurd hl (by simp)

theorem answers_pushState {block : String} {id : BlockId} (hb : p.ArraysBuilt)
    (h : p.Describes s) (hid : resolve block = some id) :
    Answers (execute resolve node (.pushState block)) p (s.push (.marker id)) := by
  simp only [execute, hid]
  exact answers_modifyPath hb fun _ => ⟨h.scalars, h.arrays, .cons rfl h.stack⟩

/-- A value that can be popped lies on top of the stack of the path. -/
theorem exists_top (h : p.Describes s) {source : Option String} {rest : List Entry}
    (hs : s.stack = .value source l :: rest) :
    ∃ known v, p.stack.top? = some (.value known v) ∧ v.Describes p.vars s.vars l ∧
      ({ p with stack := p.stack.pop } : Path).Describes { s with stack := rest } := by
  have hstack := h.stack
  rw [hs] at hstack
  unfold Stack.top? Stack.pop
  cases hp : p.stack.entries with
  | nil => rw [hp] at hstack; cases hstack
  | cons e entries =>
      rw [hp] at hstack
      cases hstack with
      | cons hhead htail =>
          cases e with
          | marker b => exact hhead.elim
          | value known v => exact ⟨known, v, rfl, hhead, h.scalars, h.arrays, htail⟩

/-- A value that is popped into a variable. -/
theorem answers_restore {known : Option String} {v : Variable} (hb : p.ArraysBuilt)
    (h : p.Describes s) (hversion : p.CanAdvance target) (hv : v.Describes p.vars s.vars l)
    (hfits : known ≠ some target → ∀ old, s.vars target = some old → old.type = l.type) :
    Answers (if known = some target then modifyPath (·.insertVar target v)
      else do
        assign target v.value .unpredictable
        modifyPath (·.modifyVar target fun w => { w with defined := v.defined })) p
      (s.bind target (some l)) := by
  split
  · exact answers_modifyPath hb fun _ => h.insertVar hversion hv
  · rename_i hknown
    refine (answers_assign hb h hversion (Value.type_of_contains hv.value) (fun _ => hv.value)
      (hfits hknown)).bind ?_
    rintro - q ⟨hq, hd⟩
    exact answers_modifyPath hq fun ho => (hd ho).modifyVar (fun _ => rfl) fun w k _ _ hw =>
      ⟨hw.type, hw.value, hw.relations⟩

theorem answers_pop (henv : env.Typed) {dest : Option String} (hb : p.ArraysBuilt)
    (h : p.Describes s) (hversion : ∀ x, dest = some x → p.CanAdvance x)
    (hsource : ∀ x, dest = some x → p.CanRestore s x) (hs' : s.pop env dest = .ok s') :
    Answers (executePop node dest) p s' := by
  unfold State.pop at hs'
  split at hs'
  · exact absurd hs' (by simp)
  · exact absurd hs' (by simp)
  · rename_i source l rest hstack
    obtain ⟨known, v, htop, hv, hrest⟩ := exists_top h hstack
    refine Yields.path.bind ?_
    rintro _ p ⟨rfl, rfl⟩
    refine (Yields.modifyPath _).bind ?_
    rintro - _ rfl
    rw [htop]
    cases dest with
    | none =>
        cases hs'
        exact .pure ⟨hb, fun _ => hrest⟩
    | some x =>
        have hfits : known ≠ some x → ∀ old, s.vars x = some old → old.type = l.type := by
          intro hknown
          by_cases hx : source = some x
          · subst hx
            refine (hsource x rfl l rest hstack).resolve_left ?_
            rintro ⟨w, hw⟩
            rw [htop] at hw
            cases hw
            exact hknown rfl
          · dsimp only at hs'
            rw [if_neg hx] at hs'
            exact (write_eq_ok henv hs').2
        have hbound : s' = ({ s with stack := rest } : State).bind x (some l) := by
          dsimp only at hs'
          split at hs'
          · cases hs'
            rfl
          · exact (write_eq_ok henv hs').1
        rw [hbound]
        exact answers_restore hb hrest (hversion x rfl) hv hfits

/-! ## Arrays -/

theorem isNaN_of_whole? {d : Double} {n : Int} (h : State.whole? d = some n) :
    d.isNaN = false := (ArrayValue.whole?_eq_some h).1

/-- A place of an array is a number. -/
theorem isNaN_of_place {c : Cells} {d : Double} {i : Int} (h : State.place c d = .ok i) :
    d.isNaN = false := by
  unfold State.place at h
  split at h
  · exact absurd h (by simp)
  · rename_i hn
    exact isNaN_of_whole? hn

/-- An array that is bound, or bound anew. -/
theorem Path.Describes.insertArray (h : p.Describes s) {name : String} {a : ArrayValue}
    {c : Cells} (ha : a.Describes c) :
    ({ p with arrays := p.arrays.insert name a } : Path).Describes (s.bindArray name c) := by
  refine ⟨h.scalars, fun other => ?_, h.stack⟩
  show Option.Rel _ ((p.arrays.insert name a).get? other)
    (if other = name then some c else s.arrays other)
  rw [Table.get?_insert]
  by_cases ho : name = other
  · rw [if_pos ho, if_pos ho.symm]
    exact .some ha
  · rw [if_neg ho, if_neg (Ne.symm ho)]
    exact h.arrays other

theorem Path.ArraysBuilt.insertArray (hb : p.ArraysBuilt) {name : String} {a : ArrayValue}
    (ha : a.Built) : ({ p with arrays := p.arrays.insert name a } : Path).ArraysBuilt := by
  intro other b hget
  dsimp only at hget
  rw [Table.get?_insert] at hget
  split at hget
  · cases hget
    exact ha
  · exact hb other b hget

theorem yields_arrayNamed (h : p.Describes s) {array : String} {c : Cells}
    (hc : s.cells array = .ok c) :
    Yields (arrayNamed array) p fun a q =>
      (p.arrays.get? array = some a ∧ a.Describes c) ∧ q = p := by
  unfold State.cells at hc
  split at hc
  · rename_i c' hget
    cases hc
    obtain ⟨a, ha, hd⟩ := h.of_array hget
    refine Yields.path.bind ?_
    rintro _ p ⟨rfl, rfl⟩
    rw [ha]
    exact .pure ⟨⟨rfl, hd⟩, rfl⟩
  · exact absurd hc (by simp)

theorem yields_warnOverflow (array : String) (index : Interval Double) (range : IndexRange) :
    Yields (warnOverflow array index range) p fun _ q => q = p := by
  unfold warnOverflow
  split
  · exact .warn _
  · exact .pure rfl

theorem answers_executeDeclareArray (henv : env.Typed) {name : String} {type : ValueType}
    {o : Operand} (hb : p.ArraysBuilt) (h : p.Describes s)
    (hs' : s.declareArray env name type o = .ok s') :
    Answers (executeDeclareArray name type o) p s' := by
  obtain ⟨d, hd, hs'⟩ := bind_eq_ok_iff.1 hs'
  split at hs'
  · rename_i n hn
    split at hs'
    · rename_i hsize
      cases hs'
      refine (yields_numericOperand h hd (isNaN_of_whole? hn)).bind ?_
      rintro range p ⟨hmem, rfl⟩
      -- whether the declaration succeeds is a matter of the size alone
      obtain ⟨a, ha, -⟩ := ArrayValue.describes_declare name type (fun _ => none) hmem hn
        hsize.1 hsize.2 (by simp)
      refine (Yields.lift ha).bind ?_
      rintro _ p ⟨rfl, rfl⟩
      refine .warn_if (answers_modifyPath (hb.insertArray (.declare ha)) fun ho => ?_)
      obtain ⟨b, hdecl, hdesc⟩ := ArrayValue.describes_declare name type (env.element name type)
        hmem hn hsize.1 hsize.2 fun i l h₁ h₂ hl =>
          ⟨henv.element name type i l hl, ho.arrays name _ (if_pos rfl) i l h₁ h₂ hl⟩
      rw [ha] at hdecl
      cases hdecl
      exact h.insertArray hdesc
    · exact absurd hs' (by simp [throw, throwThe, MonadExceptOf.throw])
  · exact absurd hs' (by simp [throw, throwThe, MonadExceptOf.throw])

theorem answers_executeReadArray (henv : env.Typed) {array : String} {o : Operand}
    (hb : p.ArraysBuilt) (h : p.Describes s) (hversion : p.CanAdvance target)
    (hs' : s.readArray env target array o = .ok s') :
    Answers (executeReadArray target array o) p s' := by
  obtain ⟨d, hd, hs'⟩ := bind_eq_ok_iff.1 hs'
  obtain ⟨c, hc, hs'⟩ := bind_eq_ok_iff.1 hs'
  obtain ⟨i, hi, hs'⟩ := bind_eq_ok_iff.1 hs'
  split at hs'
  · rename_i l hl
    obtain ⟨rfl, hfits⟩ := write_eq_ok henv hs'
    refine (yields_numericOperand h hd (isNaN_of_place hi)).bind ?_
    rintro range p ⟨hmem, rfl⟩
    refine (yields_arrayNamed h hc).bind ?_
    rintro a p ⟨⟨ha, hdesc⟩, rfl⟩
    obtain ⟨h₁, h₂, hit, hhit, hf, hlast⟩ := ArrayValue.checkIndex_eq_ok hdesc hmem hi
    refine (Yields.lift hhit).bind ?_
    rintro hit p ⟨rfl, rfl⟩
    refine (yields_warnOverflow array range hit).bind ?_
    rintro - p rfl
    have hread := hdesc.contains_read (hb array a ha).wellFormed h₁ h₂ hf hlast hl
    have hdone : Answers (assign target (a.read hit).1 .unpredictable) p _ :=
      answers_assign hb h hversion (Value.type_of_contains hread) (fun _ => hread) hfits
    dsimp only
    split
    · exact hdone
    · refine (Yields.warn _).bind ?_
      rintro - p rfl
      exact hdone
  · exact absurd hs' (by simp [throw, throwThe, MonadExceptOf.throw])

theorem answers_executeWriteArray (henv : env.Typed) {array : String} {index o : Operand}
    (hb : p.ArraysBuilt) (h : p.Describes s) (hs' : s.writeArray env array index o = .ok s') :
    Answers (executeWriteArray array index o) p s' := by
  obtain ⟨d, hd, hs'⟩ := bind_eq_ok_iff.1 hs'
  obtain ⟨l, hl, hs'⟩ := bind_eq_ok_iff.1 hs'
  obtain ⟨c, hc, hs'⟩ := bind_eq_ok_iff.1 hs'
  dsimp only at hs'
  split at hs'
  · exact absurd hs' (by simp [throw, throwThe, MonadExceptOf.throw, bind, Except.bind])
  · rename_i htype
    have htype : l.type = c.type := by simpa [henv.checked] using htype
    obtain ⟨i, hi, hs'⟩ := bind_eq_ok_iff.1 hs'
    cases hs'
    refine (yields_numericOperand h hd (isNaN_of_place hi)).bind ?_
    rintro range p ⟨hmem, rfl⟩
    refine (yields_operand h hl).bind ?_
    rintro v p ⟨hv, rfl⟩
    refine (yields_arrayNamed h hc).bind ?_
    rintro a p ⟨⟨ha, hdesc⟩, rfl⟩
    have hvtype : v.type = a.type := hv.type.trans (htype.trans hdesc.type.symm)
    obtain ⟨h₁, h₂, hit, hhit, hf, hlast⟩ := ArrayValue.checkIndex_eq_ok hdesc hmem hi
    rw [if_neg (not_not.2 hvtype)]
    refine (Yields.lift hhit).bind ?_
    rintro hit p ⟨rfl, rfl⟩
    have hbuilt := hb array a ha
    refine (Yields.modifyPath _).bind ?_
    rintro - _ rfl
    refine (yields_warnOverflow array range hit).imp ?_
    rintro - _ rfl
    refine ⟨hb.insertArray (hbuilt.write hit hvtype), fun ho => h.insertArray ?_⟩
    have hl : l.isNaN = false := ho.arrays array _ (if_pos rfl) i l h₁ h₂ (if_pos rfl)
    exact hdesc.write hbuilt.wellFormed hf hlast (hv.contains hl) hvtype

/-! ## Instructions -/

/-- What succeeds in a state succeeds on a path that describes it, by the lemma for its kind of
instruction. -/
theorem answers_execute (henv : env.Typed) {i : Instruction} (hb : p.ArraysBuilt)
    (h : p.Describes s) (hi : s.exec env resolve i = .ok s')
    (hversion : ∀ name, i.definedVariable = some name → p.CanAdvance name)
    (hsource : ∀ name, i = .pop (some name) → p.CanRestore s name) :
    Answers (execute resolve node i) p s' := by
  cases i with
  | declare name type =>
      cases hi
      exact answers_declare henv hb h (hversion name rfl)
  | assign target o =>
      obtain ⟨l, hl, hs'⟩ := bind_eq_ok_iff.1 hi
      exact answers_executeAssign henv hb h (hversion target rfl) hl hs'
  | evaluate target op lhs rhs =>
      obtain ⟨l, hl, hi⟩ := bind_eq_ok_iff.1 hi
      obtain ⟨m, hm, hi⟩ := bind_eq_ok_iff.1 hi
      obtain ⟨r, hr, hs'⟩ := bind_eq_ok_iff.1 hi
      exact answers_executeEvaluate henv hb h (hversion target rfl) hl hm hr hs'
  | print o =>
      obtain ⟨l, hl, hs'⟩ := bind_eq_ok_iff.1 hi
      cases hs'
      exact answers_print hb h hl
  | input target => exact answers_input henv hb h (hversion target rfl) hi
  | push o =>
      obtain ⟨e, he, hs'⟩ := bind_eq_ok_iff.1 hi
      obtain ⟨l, hl, he⟩ := bind_eq_ok_iff.1 he
      cases he
      cases hs'
      exact answers_push henv hb h hl
  | pushState block =>
      simp only [State.exec] at hi
      split at hi
      · rename_i id hid
        cases hi
        exact answers_pushState hb h hid
      · exact absurd hi (by simp)
  | pop dest =>
      exact answers_pop henv hb h (fun x hx => hversion x hx)
        (fun x hx => hsource x (by rw [hx])) hi
  | declareArray name type size => exact answers_executeDeclareArray henv hb h hi
  | readArray target array index =>
      exact answers_executeReadArray henv hb h (hversion target rfl) hi
  | writeArray array index o => exact answers_executeWriteArray henv hb h hi
  | jumpIf test block => exact absurd hi (by simp [State.exec])
  | jump block => exact absurd hi (by simp [State.exec])
  | ret value => exact absurd hi (by simp [State.exec])

/-- **Instructions.**  What succeeds in a state succeeds on every path that describes the
state, and the path goes on to describe what it leads to. -/
theorem execute_describes (henv : env.Typed) {i : Instruction} (hb : p.ArraysBuilt)
    (h : p.Describes s) (hi : s.exec env resolve i = .ok s')
    (hversion : ∀ name, i.definedVariable = some name → p.CanAdvance name)
    (hsource : ∀ name, i = .pop (some name) → p.CanRestore s name) (ws : Array String) :
    ∃ q ws', outcome (execute resolve node i) ⟨p, ws⟩ = (.ok (), ⟨q, ws'⟩) ∧
      q.ArraysBuilt ∧ (s'.Ordered → q.Describes s') := by
  have hanswers : Answers (execute resolve node i) p s' :=
    answers_execute henv hb h hi hversion hsource
  obtain ⟨_, q, ws', hrun, hq⟩ := hanswers ws
  exact ⟨q, ws', hrun, hq⟩

/-! ## A value that goes back, and a version that comes back -/

/-- The path that instructions lead to. -/
def pathAfter (instructions : List Instruction) : Path :=
  (runOn (executeAll (fun _ => none) "main" instructions) .start).2.path

/-- Everything is zero, or empty. -/
def zeros : Environment where
  inputs _ := some (.number .zero)
  scalar _ type := some (match type with
    | .double => .number .zero
    | .string => .string "")
  element _ _ _ := none
  checked := true

theorem zeros_typed : zeros.Typed where
  checked := rfl
  scalar _ type := by cases type <;> exact ⟨_, rfl, rfl⟩
  element _ _ _ _ h := absurd h (by simp [zeros])

/-- Saves one of two numbers, and makes the first of them a string. -/
def saving (source : String) : List Instruction :=
  [.declare "x" .double, .declare "y" .double, .push (.var source), .declare "x" .string]

/-- A path on which a number was saved and its variable is a string now. -/
def saved (source : Option String) : Path where
  vars := ⟨⟨[("x", { Variable.declared .string with version := 1 }),
    ("y", .declared .double)]⟩, []⟩
  stack := ⟨[.value source (.declared .double)]⟩

/-- Two paths that saved different variables, taken together. -/
def forgetful : Path := (pathAfter (saving "x")).join (pathAfter (saving "y"))

theorem forgetful_eq : forgetful = saved none := rfl

/-- A state in which a number was saved and its variable is a string now. -/
def savedState : State where
  vars name := if name = "x" then some (.string "") else
    if name = "y" then some (.number .zero) else none
  stack := [.value (some "x") (.number .zero)]

theorem saved_describes (source : Option String) : (saved source).Describes savedState := by
  have hdouble : ∀ vars held, (Variable.declared .double).Describes vars held (.number .zero) :=
    fun _ _ => ⟨rfl, by decide, fun _ hr => absurd hr (by simp [Variable.declared])⟩
  refine ⟨fun name => ?_, fun _ => .none, .cons (hdouble _ _) .nil⟩
  simp only [Path.var?, saved, Scopes.get?, List.findSome?, Table.get?, Table.find, savedState]
  by_cases hx : "x" = name
  · subst hx
    exact .some ⟨rfl, by decide, fun _ hr => absurd hr (by simp [Variable.declared])⟩
  · by_cases hy : "y" = name
    · subst hy
      exact .some (hdouble _ _)
    · rw [if_neg hx, if_neg hy, if_neg (Ne.symm hx), if_neg (Ne.symm hy)]
      exact .none

theorem saved_arraysBuilt (source : Option String) : (saved source).ArraysBuilt :=
  fun _ _ h => absurd h (by simp [saved, Table.get?, Table.find, Table.empty])

/-- A number that goes back into its variable makes it a number again. -/
theorem execute_describes_restored :
    ∃ s', savedState.exec zeros (fun _ => none) (.pop (some "x")) = .ok s' ∧
      s'.vars "x" = some (.number .zero) ∧
      ∃ q ws', outcome (execute (fun _ => none) "main" (.pop (some "x")))
          ⟨pathAfter (saving "x"), #[]⟩ = (.ok (), ⟨q, ws'⟩) ∧
        q.ArraysBuilt ∧ q.Describes s' := by
  refine ⟨_, rfl, rfl, ?_⟩
  obtain ⟨q, ws', hrun, hq, hd⟩ := execute_describes (i := .pop (some "x")) zeros_typed
    (saved_arraysBuilt (some "x")) (saved_describes (some "x")) rfl
    (by
      intro name hname v hv
      cases hname
      cases hv
      decide)
    (fun name hname l rest _ => .inl (by cases hname; exact ⟨_, rfl⟩)) #[]
  refine ⟨q, ws', hrun, hq, hd (State.Ordered.of_vars rfl rfl fun name l hl => ?_)⟩
  simp only [State.bind, savedState] at hl
  split_ifs at hl <;> cases hl <;> decide

/-- Makes `x` equal to `y`, and reads `y` over and over. -/
def flooding (n : Nat) : List Instruction :=
  [.declare "y" .double, .assign "x" (.var "y")] ++ List.replicate n (.input "y")

/-- A path on which `y` was read until it had the version. -/
def flooded (version : Version) : Path where
  vars := ⟨⟨[
    ("y", ⟨.double, .full .double, true, .unpredictable, version, []⟩),
    ("x", ⟨.double, .full .double, true, .unpredictable, 1, [⟨.eq, "y", 0⟩]⟩)]⟩, []⟩

theorem execute_flooded (version : Version) (ws : Array String) :
    outcome (execute (fun _ => none) "main" (.input "y")) ⟨flooded version, ws⟩ =
      (.ok (), ⟨flooded (version + 1), ws⟩) := rfl

theorem executeAll_concat (instructions : List Instruction) (i : Instruction) :
    executeAll resolve node (instructions ++ [i]) =
      executeAll resolve node instructions >>= fun _ => execute resolve node i := by
  simp only [executeAll, List.forM_eq_forM, List.forM_append, List.forM_cons, List.forM_nil,
    bind_pure_unit]

theorem outcome_flooding (n : Nat) :
    ∃ ws, outcome (executeAll (fun _ => none) "main" (flooding (n + 1))) ⟨.start, #[]⟩ =
      (.ok (), ⟨flooded (.ofNat (n + 1)), ws⟩) := by
  induction n with
  | zero => exact ⟨_, rfl⟩
  | succ n ih =>
      obtain ⟨ws, ih⟩ := ih
      have happ : flooding (n + 2) = flooding (n + 1) ++ [.input "y"] := by
        rw [flooding, flooding, List.replicate_succ', List.append_assoc]
      refine ⟨ws, ?_⟩
      rw [happ, executeAll_concat, outcome_bind_ok ih, execute_flooded]
      simp [UInt64.ofNat_add]

theorem pathAfter_flooding {n : Nat} (hn : 0 < n) :
    pathAfter (flooding n) = flooded (.ofNat n) := by
  obtain ⟨m, rfl⟩ := Nat.exists_eq_add_of_lt hn
  obtain ⟨ws, h⟩ := outcome_flooding (0 + m)
  exact congrArg (fun r => r.2.path) h

/-- The path on which the next version of `y` is zero. -/
def exhausted : Path := pathAfter (flooding (2 ^ 64 - 1))

theorem exhausted_eq : exhausted = flooded (.ofNat (2 ^ 64 - 1)) :=
  pathAfter_flooding (by decide)

/-- A state in which `x` and `y` differ. -/
def floodedState : State where
  vars name := if name = "y" then some (.number .zero) else
    if name = "x" then some (.number .one) else none

theorem flooded_describes {version : Version} (h : version ≠ 0) :
    (flooded version).Describes floodedState := by
  refine ⟨fun name => ?_, fun _ => .none, .nil⟩
  simp only [Path.var?, flooded, Scopes.get?, List.findSome?, Table.get?, Table.find,
    floodedState]
  by_cases hy : "y" = name
  · subst hy
    exact .some ⟨rfl, rfl, fun _ hr => absurd hr (by simp)⟩
  · by_cases hx : "x" = name
    · subst hx
      refine .some ⟨rfl, rfl, fun r hr => ?_⟩
      obtain rfl : r = ⟨.eq, "y", 0⟩ := by simpa using hr
      exact ⟨_, _, rfl, rfl, UInt64.zero_le, fun heq => absurd heq.symm h⟩
    · rw [if_neg hy, if_neg hx, if_neg (Ne.symm hy), if_neg (Ne.symm hx)]
      exact .none

/-- The relation to `y` is wrong when it is current. -/
theorem not_flooded_describes (hx : s.vars "x" = some (.number .one))
    (hy : s.vars "y" = some (.number .zero)) : ¬ (flooded 0).Describes s := by
  intro h
  obtain ⟨l, hl, hd⟩ := h.of_var? (v := ⟨.double, .full .double, true, .unpredictable, 1,
    [⟨.eq, "y", 0⟩]⟩) (rfl : (flooded 0).var? "x" = _)
  obtain ⟨w, m, hw, hm, -, hcurrent⟩ := hd.relations ⟨.eq, "y", 0⟩ (List.mem_cons_self ..)
  cases hw
  rw [hx] at hl
  rw [hy] at hm
  cases hl
  cases hm
  have hfold : RelOp.eq.fold (.number .one) (.number .zero) = .ok false := rfl
  exact absurd (hfold.symm.trans (hcurrent rfl)) (by simp)

/-- A state in which a number is infinite. -/
def endless : State where
  vars name := if name = "x" then some (.number .infinity) else none

theorem endless_described : (pathAfter [.declare "x" .double]).Describes endless := by
  refine ⟨fun name => ?_, fun _ => .none, .nil⟩
  rw [show pathAfter [.declare "x" .double] =
    { vars := ⟨⟨[("x", .declared .double)]⟩, []⟩ } from rfl]
  simp only [Path.var?, Scopes.get?, List.findSome?, Table.get?, Table.find, endless]
  by_cases hx : "x" = name
  · subst hx
    exact .some ⟨rfl, by decide, fun _ hr => absurd hr (by simp [Variable.declared])⟩
  · rw [if_neg hx, if_neg (Ne.symm hx)]
    exact .none

/-- No path describes a state with NaN. -/
theorem not_describes_of_isNaN (name : String) (hl : s.vars name = some l)
    (hn : l.isNaN = true) : ¬ p.Describes s := by
  intro h
  obtain ⟨v, -, hd⟩ := h.of_held hl
  rw [Value.isNaN_of_contains hd.value] at hn
  exact absurd hn (by simp)

/-- **Gaps.**  A value that goes back into its variable is refused if two paths with
different sources were joined, and the `2 ^ 64`th write of a variable makes relations to
its first value current again.  Arithmetic leads out of the states without NaN. -/
theorem execute_gaps :
    (forgetful.ArraysBuilt ∧ forgetful.Describes savedState ∧
      (∃ s', savedState.exec zeros (fun _ => none) (.pop (some "x")) = .ok s') ∧
      (outcome (execute (fun _ => none) "main" (.pop (some "x"))) ⟨forgetful, #[]⟩).1 =
        .error (.program (.assignmentMismatch "x" .string .double))) ∧
    (exhausted.ArraysBuilt ∧ exhausted.Describes floodedState ∧
      ∃ s', floodedState.exec zeros (fun _ => none) (.input "y") = .ok s' ∧ s'.Ordered ∧
        ∃ q, outcome (execute (fun _ => none) "main" (.input "y")) ⟨exhausted, #[]⟩ =
          (.ok (), ⟨q, #[]⟩) ∧ ¬ q.Describes s') ∧
    endless.Ordered ∧ (pathAfter [.declare "x" .double]).Describes endless ∧
      ∃ s', endless.exec zeros (fun _ => none) (.evaluate "y" .sub (.var "x") (.var "x")) =
        .ok s' ∧ ∀ q : Path, ¬ q.Describes s' := by
  rw [forgetful_eq, exhausted_eq]
  refine ⟨⟨saved_arraysBuilt none, saved_describes none, ⟨_, rfl⟩, rfl⟩,
    ⟨fun _ _ h => absurd h (by simp [flooded, Table.get?, Table.find, Table.empty]),
      flooded_describes (by decide), _, rfl, .of_vars rfl rfl fun name l hl => ?_, _,
      execute_flooded _ _, not_flooded_describes rfl rfl⟩,
    .of_vars rfl rfl fun name l hl => ?_, endless_described, _, rfl, fun q =>
      not_describes_of_isNaN "y" rfl (by decide)⟩
  · simp only [State.bind, floodedState] at hl
    split_ifs at hl <;> cases hl <;> decide
  · simp only [endless] at hl
    split_ifs at hl
    cases hl
    decide

end Symbolic
end FlowVerifier
