import FlowVerifier.Proofs.Symbolic.Views
import FlowVerifier.Symbolic.Path

/-!
# Paths that are alike

A search decides nothing by how a variable moved or by the branches that a path has
taken.  Two paths are *alike* if they agree in everything else, up to a given `Slack`.

* `Path.Alike.enter`: alike paths enter a block alike, whether the block is new, is
  covered by the record or has to be widened.  If they differ in unused variables, the
  block has to be new.
* `Path.Alike.enter_left`: a path may enter a new block that the other passes by.
-/

namespace FlowVerifier
namespace Symbolic

/-- What two paths may differ in. -/
structure Slack where
  /-- Variables whose values are only passed on.  Slots of the stack may differ in that
  one of them remembers to have been pushed from such a variable. -/
  passed : List String := []
  /-- Variables that nobody reads. -/
  unused : List String := []
  /-- The types of unused variables. -/
  type : String → ValueType := fun _ => .double
  /-- The blocks that the second path enters where the first enters the given one. -/
  leads : BlockId → BlockId → Prop := Eq

/-! ## Stacks -/

/-- Two slots are alike if they differ in how their variables moved at most, or if they
hold the same value and only one of them remembers where it was pushed from. -/
inductive StackEntry.Alike (slack : Slack) : StackEntry → StackEntry → Prop where
  /-- The same marker. -/
  | marker {block : BlockId} (hl : slack.leads block block) :
      Alike slack (.marker block) (.marker block)
  /-- The same variable. -/
  | value (source : Option String) {v w : Variable} (h : v.bare = w.bare)
      (hc : v.Avoids slack.unused) : Alike slack (.value source v) (.value source w)
  /-- The value of a variable, and a value. -/
  | passed {name : String} (hn : name ∈ slack.passed) {v w : Variable} (htype : v.type = w.type)
      (hvalue : v.value = w.value) (hdefined : v.defined = w.defined) :
      Alike slack (.value (some name) v) (.value none w)

namespace StackEntry.Alike

variable {slack : Slack} {a a' b b' : StackEntry}

theorem marker?_eq (h : a.Alike slack b) : a.marker? = b.marker? := by
  cases h <;> rfl

theorem isValue_eq (h : a.Alike slack b) : a.isValue = b.isValue := by
  cases h <;> rfl

theorem subsumes_eq (h : a.Alike slack a') (h' : b.Alike slack b') :
    a.subsumes b = a'.subsumes b' := by
  cases h <;> cases h' <;> simp_all [subsumes, Variable.bare_eq_iff]

theorem covers_eq (h : a.Alike slack a') (h' : b.Alike slack b') :
    a.covers b = a'.covers b' := by
  cases h <;> cases h' <;> simp_all [covers, Variable.bare_eq_iff]

/-- Widening a slot reads no more of the older one than its type and its value. -/
theorem widen (h : a.Alike slack a') (h' : b.Alike slack b') :
    (a.widen b).Alike slack (a'.widen b') := by
  have hvalues : ∀ {source source' : Option String} {v v' : Variable}, v.type = v'.type →
      v.value = v'.value →
      ((StackEntry.value source v).widen b).Alike slack
        ((StackEntry.value source' v').widen b') := by
    intro source source' v v' htype hvalue
    cases h' with
    | marker hl => exact .marker hl
    | value s hw hc =>
        have hw' := Variable.bare_eq_iff.1 hw
        simp only [StackEntry.widen, htype, hw'.1]
        split
        · exact .value s (by simp [Variable.bare_eq_iff, hw', hvalue]) (.of_nil rfl)
        · exact .value s hw hc
    | passed hn ht hv hd =>
        simp only [StackEntry.widen, htype, ht]
        split
        · exact .passed hn rfl (by simp [hvalue, hv]) hd
        · exact .passed hn ht hv hd
  cases h with
  | marker hl => exact h'
  | value source hvw hc =>
      rw [Variable.bare_eq_iff] at hvw
      exact hvalues hvw.1 hvw.2.1
  | passed hn ht hv hd => exact hvalues ht hv

end StackEntry.Alike

/-- Stacks of the same height whose slots are alike. -/
def Stack.Alike (slack : Slack) (s t : Stack) : Prop :=
  List.Forall₂ (StackEntry.Alike slack) s.entries t.entries

namespace Stack.Alike

variable {slack : Slack} {s s' t t' : Stack}

theorem push (h : s.Alike slack t) {e e' : StackEntry} (he : e.Alike slack e') :
    (s.push e).Alike slack (t.push e') := .cons he h

theorem pop (h : s.Alike slack t) : s.pop.Alike slack t.pop := by
  obtain ⟨l⟩ := s
  obtain ⟨l'⟩ := t
  cases h with
  | nil => exact .nil
  | cons _ h => exact h

theorem topMarker?_eq (h : s.Alike slack t) : s.topMarker? = t.topMarker? := by
  obtain ⟨l⟩ := s
  obtain ⟨l'⟩ := t
  unfold topMarker?
  simp only [Stack.Alike] at h ⊢
  induction h with
  | nil => rfl
  | cons he _ ih => simp only [List.findSome?_cons, he.marker?_eq, ih]

theorem callDepth_eq (h : s.Alike slack t) : s.callDepth = t.callDepth := by
  obtain ⟨l⟩ := s
  obtain ⟨l'⟩ := t
  unfold callDepth
  simp only [Stack.Alike] at h ⊢
  induction h with
  | nil => rfl
  | cons he _ ih => simp only [List.countP_cons, he.isValue_eq, ih]

theorem frame (h : s.Alike slack t) :
    List.Forall₂ (StackEntry.Alike slack) s.frame t.frame := by
  obtain ⟨l⟩ := s
  obtain ⟨l'⟩ := t
  unfold Stack.frame
  simp only [Stack.Alike] at h ⊢
  induction h with
  | nil => exact .nil
  | cons he _ ih =>
      simp only [List.takeWhile_cons, he.isValue_eq]
      split
      · exact .cons he ih
      · exact .nil

theorem belowFrame (h : s.Alike slack t) :
    List.Forall₂ (StackEntry.Alike slack) s.belowFrame t.belowFrame := by
  obtain ⟨l⟩ := s
  obtain ⟨l'⟩ := t
  unfold Stack.belowFrame
  simp only [Stack.Alike] at h ⊢
  induction h with
  | nil => exact .nil
  | cons he hl ih =>
      simp only [List.dropWhile_cons, he.isValue_eq]
      split
      · exact ih
      · exact .cons he hl

/-- Markers name blocks that both paths enter. -/
theorem leads_topMarker? (h : s.Alike slack t) {block : BlockId}
    (hm : s.topMarker? = some block) : slack.leads block block := by
  obtain ⟨l⟩ := s
  obtain ⟨l'⟩ := t
  unfold topMarker? at hm
  simp only [Stack.Alike] at h hm
  induction h with
  | nil => exact absurd hm (by simp)
  | cons he _ ih =>
      rw [List.findSome?_cons] at hm
      cases he with
      | marker hl => exact (Option.some.inj hm) ▸ hl
      | value source h hc => exact ih hm
      | passed => exact ih hm

/-- Alike stacks are unwound to the same block. -/
theorem unwind? (h : s.Alike slack t) :
    (s.unwind? = none ∧ t.unwind? = none) ∨
      ∃ block u u', s.unwind? = some (block, u) ∧ t.unwind? = some (block, u') ∧
        slack.leads block block ∧ u.Alike slack u' := by
  unfold Stack.unwind?
  rw [← h.topMarker?_eq]
  cases hm : s.topMarker? with
  | none => exact .inl ⟨rfl, rfl⟩
  | some block =>
      have hbelow := h.belowFrame
      refine .inr ⟨block, _, _, rfl, rfl, h.leads_topMarker? hm, ?_⟩
      show List.Forall₂ _ s.belowFrame.tail t.belowFrame.tail
      generalize s.belowFrame = l, t.belowFrame = l' at hbelow
      cases hbelow with
      | nil => exact .nil
      | cons _ hl => exact hl

theorem zip_all {f : StackEntry → StackEntry → Bool}
    (hf : ∀ a a' b b', a.Alike slack a' → b.Alike slack b' → f a b = f a' b')
    {l l' k k' : List StackEntry} (hl : List.Forall₂ (StackEntry.Alike slack) l l')
    (hk : List.Forall₂ (StackEntry.Alike slack) k k') :
    ((l.zip k).all fun (a, b) => f a b) = (l'.zip k').all fun (a, b) => f a b := by
  induction hl generalizing k k' with
  | nil => rfl
  | cons ha _ ih =>
      cases hk with
      | nil => rfl
      | cons hb hk => simp only [List.zip_cons_cons, List.all_cons, hf _ _ _ _ ha hb, ih hk]

theorem subsumes_eq (h : s.Alike slack s') (h' : t.Alike slack t') :
    s.subsumes t = s'.subsumes t' := by
  unfold Stack.subsumes Stack.size
  rw [h.length_eq, h'.length_eq, zip_all (fun _ _ _ _ ha hb => ha.subsumes_eq hb) h h']

theorem frameSubsumes_eq (h : s.Alike slack s') (h' : t.Alike slack t') :
    s.frameSubsumes t = s'.frameSubsumes t' := by
  unfold Stack.frameSubsumes
  rw [h.frame.length_eq, h'.frame.length_eq,
    zip_all (fun _ _ _ _ ha hb => ha.covers_eq hb) h.frame h'.frame]

theorem widenFrame (h : s.Alike slack s') (h' : t.Alike slack t') :
    (s.widenFrame t).Alike slack (s'.widenFrame t') := by
  have hzip : ∀ {l l' k k' : List StackEntry}, List.Forall₂ (StackEntry.Alike slack) l l' →
      List.Forall₂ (StackEntry.Alike slack) k k' →
      List.Forall₂ (StackEntry.Alike slack) (List.zipWith StackEntry.widen l k)
        (List.zipWith StackEntry.widen l' k') := by
    intro l l' k k' hl hk
    induction hl generalizing k k' with
    | nil => exact .nil
    | cons ha _ ih =>
        cases hk with
        | nil => exact .nil
        | cons hb hk => exact .cons (ha.widen hb) (ih hk)
  unfold Stack.widenFrame
  rw [h.frame.length_eq, h'.frame.length_eq]
  split
  · exact List.rel_append (hzip h'.frame h.frame) h.belowFrame
  · exact h

end Stack.Alike

/-! ## States -/

/-- States of paths that are alike. -/
structure Snapshot.Alike (slack : Slack) (s t : Snapshot) : Prop where
  vars : ((s.vars.without slack.unused).map fun _ => Variable.bare) =
    t.vars.map fun _ => Variable.bare
  arrays : s.arrays = t.arrays
  stack : s.stack.Alike slack t.stack

/-- Does the older state know of the variables of these names what the newer one does? -/
def Snapshot.covers (old new : Snapshot) (names : List String) : Bool :=
  new.vars.entries.all fun e =>
    !decide (e.1 ∈ names) || (old.vars.get? e.1).any (·.subsumes e.2)

/-- What covers a state covers the states alike, if it covers the unused variables. -/
theorem Snapshot.Alike.subsumes_eq {slack : Slack} {old old' new new' : Snapshot}
    (hcovers : old.covers new slack.unused = true) (h : old.Alike slack old')
    (h' : new.Alike slack new') (wholeStack : Bool) :
    old.subsumes new wholeStack = old'.subsumes new' wholeStack := by
  have hsubsumes : ∀ old new : Snapshot, old.subsumes new wholeStack =
      ((new.vars.entries.all fun e => (old.vars.get? e.1).any (·.subsumes e.2)) &&
        (new.arrays.entries.all fun e => (old.arrays.get? e.1).any (·.subsumes e.2)) &&
        if wholeStack then old.stack.subsumes new.stack
        else old.stack.frameSubsumes new.stack) := fun _ _ => rfl
  -- both sides are read off the variables without their trends
  have hvars : ∀ old new : Table String Variable,
      (new.entries.all fun e => (old.get? e.1).any (·.subsumes e.2)) =
        (new.map fun _ => Variable.bare).entries.all fun e =>
          ((old.map fun _ => Variable.bare).get? e.1).any (·.subsumes e.2) := by
    intro old new
    show _ = (new.entries.map fun e => (e.1, e.2.bare)).all _
    rw [List.all_map]
    congr 1
    funext e
    show (old.get? e.1).any (·.subsumes e.2) =
      ((old.map fun _ => Variable.bare).get? e.1).any (·.subsumes e.2.bare)
    rw [Table.get?_map]
    cases old.get? e.1 <;> rfl
  -- the unused variables are covered, and need not be looked at
  have hused : (new.vars.entries.all fun e => (old.vars.get? e.1).any (·.subsumes e.2)) =
      (new.vars.without slack.unused).entries.all fun e =>
        ((old.vars.without slack.unused).get? e.1).any (·.subsumes e.2) := by
    rw [Bool.eq_iff_iff, List.all_eq_true, List.all_eq_true]
    refine ⟨fun hall e he => ?_, fun hall e he => ?_⟩
    · obtain ⟨he, hname⟩ := List.mem_filter.1 he
      rw [Table.get?_without, if_neg (by simpa using hname)]
      exact hall e he
    · by_cases hname : e.1 ∈ slack.unused
      · simpa [hname] using List.all_eq_true.1 hcovers e he
      · have hkept := hall e (List.mem_filter.2 ⟨he, by simpa using hname⟩)
        rwa [Table.get?_without, if_neg hname] at hkept
  rw [hsubsumes, hsubsumes, hused, hvars, hvars old'.vars, h.vars, h'.vars, h.arrays, h'.arrays,
    h.stack.subsumes_eq h'.stack, h.stack.frameSubsumes_eq h'.stack]

/-- Records of entries of paths that are alike. -/
structure VisitRecord.Alike (slack : Slack) (r s : VisitRecord) : Prop where
  snapshot : r.snapshot.Alike slack s.snapshot
  widenings : r.widenings = s.widenings
  callDepth : r.callDepth = s.callDepth

/-! ## Paths -/

/-- Paths that differ in how variables moved, in the branches taken, and as the slack
allows. -/
structure Path.Alike (slack : Slack) (p q : Path) : Prop where
  vars : (p.vars.without slack.unused).bare = q.vars.bare
  clear : p.vars.Clear slack.unused
  typed : p.vars.Typed slack.unused slack.type
  stack : p.stack.Alike slack q.stack
  arrays : p.arrays = q.arrays
  visits : ∀ key, slack.leads key.1 key.1 →
    Option.Rel (VisitRecord.Alike slack) (p.visits.get? key) (q.visits.get? key)

/-- What is on record at a block covers the variables of these names that the path has. -/
def Path.Covered (p : Path) (block : BlockId) (names : List String) : Prop :=
  ∀ r, p.visits.get? (block, p.stack.topMarker?) = some r →
    r.snapshot.covers p.snapshot names = true

theorem Path.covered_nil (p : Path) (block : BlockId) : p.Covered block [] := fun _ _ =>
  List.all_eq_true.2 fun _ _ => rfl

namespace Path.Alike

variable {slack : Slack} {p q : Path} {name : String}

theorem start : Path.start.Alike slack .start where
  vars := rfl
  clear x v _ hv := absurd hv (by simp [Path.start, Scopes.get?, Scopes.empty])
  typed x v _ hv := absurd hv (by simp [Path.start, Scopes.get?, Scopes.empty])
  stack := .nil
  arrays := rfl
  visits _ _ := .none

theorem var?_cases (h : p.Alike slack q) (hn : name ∉ slack.unused) :
    (p.var? name = none ∧ q.var? name = none) ∨
      ∃ v w, p.var? name = some v ∧ q.var? name = some w ∧ v.bare = w.bare := by
  have hcases := Scopes.get?_cases h.vars name
  simp only [Scopes.get?_without, if_neg hn] at hcases
  exact hcases

/-- The same is known of two variables. -/
theorem relation_eq (h : p.Alike slack q) {lhs : String} (hl : lhs ∉ slack.unused)
    (rhs : String) : p.vars.relation lhs rhs = q.vars.relation lhs rhs := by
  rw [← Scopes.relation_without h.clear hl, Scopes.relation_eq h.vars]

theorem fork (h : p.Alike slack q) : p.fork.Alike slack q.fork where
  vars := by simp only [Path.fork, Scopes.without_fork, Scopes.bare_fork, h.vars]
  clear x v hx hv := h.clear x v hx (by rwa [Path.fork, Scopes.get?_fork] at hv)
  typed x v hx hv := h.typed x v hx (by rwa [Path.fork, Scopes.get?_fork] at hv)
  stack := h.stack
  arrays := h.arrays
  visits := h.visits

theorem modifyVar (h : p.Alike slack q) (hn : name ∉ slack.unused) {f f' : Variable → Variable}
    (hf : ∀ v w, v.bare = w.bare → (f v).bare = (f' w).bare)
    (hc : ∀ v, v.Avoids slack.unused → (f v).Avoids slack.unused)
    (ht : ∀ v, (f v).type = v.type) :
    (p.modifyVar name f).Alike slack (q.modifyVar name f') where
  vars := by
    simp only [Path.modifyVar, Scopes.without_modify hn]
    exact Scopes.bare_modify h.vars name hf
  clear := h.clear.modify name hc
  typed := h.typed.modify name ht
  stack := h.stack
  arrays := h.arrays
  visits := h.visits

theorem insertVar (h : p.Alike slack q) (hn : name ∉ slack.unused) {v w : Variable}
    (hvw : v.bare = w.bare) (hc : v.Avoids slack.unused) :
    (p.insertVar name v).Alike slack (q.insertVar name w) where
  vars := by
    simp only [Path.insertVar, Scopes.without_insert hn]
    exact Scopes.bare_insert h.vars name hvw
  clear := h.clear.insert fun _ => hc
  typed := h.typed.insert fun hx => absurd hx hn
  stack := h.stack
  arrays := h.arrays
  visits := h.visits

/-- A variable that nobody reads may be changed on one side. -/
theorem modifyVar_left (h : p.Alike slack q) (hn : name ∈ slack.unused)
    {f : Variable → Variable} (ht : ∀ v, (f v).type = v.type) :
    (p.modifyVar name f).Alike slack q where
  vars := by simp only [Path.modifyVar, Scopes.without_modify_of_mem hn, h.vars]
  clear x v hx hv := by
    have hne : name ≠ x := fun heq => hx (heq ▸ hn)
    rw [Path.modifyVar, Scopes.get?_modify, if_neg hne] at hv
    exact h.clear x v hx hv
  typed := h.typed.modify name ht
  stack := h.stack
  arrays := h.arrays
  visits := h.visits

theorem insertVar_left (h : p.Alike slack q) (hn : name ∈ slack.unused) {v : Variable}
    (ht : v.type = slack.type name) : (p.insertVar name v).Alike slack q where
  vars := by simp only [Path.insertVar, Scopes.without_insert_of_mem hn, h.vars]
  clear := h.clear.insert fun hx => absurd hn hx
  typed := h.typed.insert fun _ => ht
  stack := h.stack
  arrays := h.arrays
  visits := h.visits

theorem relate (h : p.Alike slack q) {lhs rhs : String} (hl : lhs ∉ slack.unused)
    (hr : rhs ∉ slack.unused) (op : RelOp) :
    Path.Alike slack { p with vars := p.vars.relate lhs op rhs }
      { q with vars := q.vars.relate lhs op rhs } where
  vars := by
    simp only [Scopes.without_relate hl hr]
    exact Scopes.bare_relate h.vars lhs op rhs
  clear := h.clear.relate hl hr op
  typed := h.typed.relate lhs op rhs
  stack := h.stack
  arrays := h.arrays
  visits := h.visits

theorem assume_left (h : p.Alike slack q) (node : String) (test : Comparison) :
    (p.assume node test).Alike slack q := ⟨h.vars, h.clear, h.typed, h.stack, h.arrays, h.visits⟩

theorem assume_right (h : p.Alike slack q) (node : String) (test : Comparison) :
    p.Alike slack (q.assume node test) := ⟨h.vars, h.clear, h.typed, h.stack, h.arrays, h.visits⟩

theorem withStack (h : p.Alike slack q) {s t : Stack} (hst : s.Alike slack t) :
    Path.Alike slack { p with stack := s } { q with stack := t } :=
  ⟨h.vars, h.clear, h.typed, hst, h.arrays, h.visits⟩

theorem withArrays (h : p.Alike slack q) (arrays : Table String ArrayValue) :
    Path.Alike slack { p with arrays } { q with arrays } :=
  ⟨h.vars, h.clear, h.typed, h.stack, rfl, h.visits⟩

theorem snapshot (h : p.Alike slack q) : p.snapshot.Alike slack q.snapshot where
  vars := by
    simp only [Path.snapshot, ← Scopes.visible_without, ← Scopes.visible_bare, h.vars]
  arrays := h.arrays
  stack := h.stack

theorem clobber (h : p.Alike slack q) : p.clobber.Alike slack q.clobber where
  vars := by
    simp only [Path.clobber, Scopes.without_mapAll]
    refine Scopes.bare_mapAll h.vars fun name v w hvw => ?_
    rw [Variable.bare_eq_iff] at hvw ⊢
    simp [Variable.write, hvw]
  clear := h.clear.mapAll fun _ _ _ => .of_nil rfl
  typed := h.typed.mapAll fun _ _ => rfl
  stack := h.stack
  arrays := by simp only [Path.clobber, h.arrays]
  visits := h.visits

/-! ### Entering a block -/

theorem widenVar {old old' v w : Variable} (hold : old.bare = old'.bare) (hvw : v.bare = w.bare) :
    (Path.widenVar old v).bare = (Path.widenVar old' w).bare := by
  rw [Variable.bare_eq_iff] at hold hvw
  unfold Path.widenVar
  simp only [hold, hvw]
  split
  · split <;> simp [Variable.bare_eq_iff, hvw]
  · exact Variable.bare_eq_iff.2 hvw

theorem type_widenVar (old v : Variable) : (Path.widenVar old v).type = v.type := by
  unfold Path.widenVar
  split
  · dsimp only
    split <;> rfl
  · rfl

theorem avoids_widenVar {names : List String} {old v : Variable} (h : v.Avoids names) :
    (Path.widenVar old v).Avoids names := by
  unfold Path.widenVar
  split
  · dsimp only
    split
    · exact h
    · exact .of_nil rfl
  · exact h

theorem widenFrom (h : p.Alike slack q) {old old' : Snapshot} (hold : old.Alike slack old') :
    (p.widenFrom old).Alike slack (q.widenFrom old') where
  vars := by
    have hkept : ∀ name v, name ∉ slack.unused →
        (old.vars.get? name).elim v (Path.widenVar · v) =
          ((old.vars.without slack.unused).get? name).elim v (Path.widenVar · v) := by
      intro name v hname
      rw [Table.get?_without, if_neg hname]
    simp only [Path.widenFrom, Scopes.without_mapAll]
    rw [Scopes.mapAll_without_congr hkept]
    refine Scopes.bare_mapAll h.vars fun name v w hvw => ?_
    have hname : ((old.vars.without slack.unused).get? name).map Variable.bare =
        (old'.vars.get? name).map Variable.bare := by
      have hmap := congrArg (·.get? name) hold.vars
      simpa only [Table.get?_map] using hmap
    cases ho : (old.vars.without slack.unused).get? name with
    | none =>
        rw [ho] at hname
        rw [Option.map_eq_none_iff.1 hname.symm]
        exact hvw
    | some u =>
        rw [ho] at hname
        obtain ⟨u', hu', hu⟩ := Option.map_eq_some_iff.1 hname.symm
        rw [hu']
        exact widenVar hu.symm hvw
  clear := by
    refine h.clear.mapAll fun name v hv => ?_
    cases old.vars.get? name with
    | none => exact hv
    | some u => exact avoids_widenVar hv
  typed := by
    refine h.typed.mapAll fun name v => ?_
    cases old.vars.get? name with
    | none => rfl
    | some u => exact type_widenVar u v
  stack := h.stack.widenFrame hold.stack
  arrays := by simp only [Path.widenFrom, h.arrays, hold.arrays]
  visits := h.visits

/-- Another block is entered on both sides. -/
theorem deeper (h : p.Alike slack q) :
    Path.Alike slack { p with depth := p.depth + 1 } { q with depth := q.depth + 1 } :=
  ⟨h.vars, h.clear, h.typed, h.stack, h.arrays, h.visits⟩

theorem insertVisit (h : p.Alike slack q) (key : BlockId × Option BlockId)
    {r r' : VisitRecord} (hr : r.Alike slack r') :
    Path.Alike slack { p with visits := p.visits.insert key r }
      { q with visits := q.visits.insert key r' } := by
  refine ⟨h.vars, h.clear, h.typed, h.stack, h.arrays, fun other ho => ?_⟩
  simp only [Table.get?_insert]
  split
  · exact .some hr
  · exact h.visits other ho

/-- **Alike paths enter a block alike**, if the record covers the unused variables. -/
theorem enter (h : p.Alike slack q) {block : BlockId} (hb : slack.leads block block)
    (hcovered : p.Covered block slack.unused) (maxWidenings : Nat) :
    (p.enter block maxWidenings).1 = (q.enter block maxWidenings).1 ∧
      (p.enter block maxWidenings).2.Alike slack (q.enter block maxWidenings).2 := by
  unfold Path.Covered at hcovered
  unfold Path.enter
  dsimp only
  rw [← h.stack.topMarker?_eq, ← h.stack.callDepth_eq]
  have hvisits := h.visits (block, p.stack.topMarker?) hb
  generalize p.visits.get? (block, p.stack.topMarker?) = r,
    q.visits.get? (block, p.stack.topMarker?) = r' at hvisits hcovered
  cases hvisits with
  | none => exact ⟨rfl, h.deeper.insertVisit _ ⟨h.deeper.snapshot, rfl, rfl⟩⟩
  | @some r r' hr =>
      have hsubsumes : ∀ wholeStack,
          r.snapshot.subsumes (Path.snapshot { p with depth := p.depth + 1 }) wholeStack =
            r'.snapshot.subsumes (Path.snapshot { q with depth := q.depth + 1 }) wholeStack :=
        hr.snapshot.subsumes_eq (hcovered _ rfl) h.deeper.snapshot
      dsimp only
      rw [hr.callDepth, hsubsumes, hr.widenings]
      split
      · exact ⟨rfl, h.deeper⟩
      · split
        · exact ⟨rfl, h.deeper⟩
        · split
          · exact ⟨rfl, h.deeper⟩
          · have hwiden := h.deeper.widenFrom hr.snapshot
            exact ⟨rfl, hwiden.insertVisit _ ⟨hwiden.snapshot, rfl, rfl⟩⟩

/-- A block that only one path enters. -/
theorem enter_left (h : p.Alike slack q) {block : BlockId} (hb : ¬ slack.leads block block)
    (hnew : p.visits.get? (block, p.stack.topMarker?) = none) (maxWidenings : Nat) :
    (p.enter block maxWidenings).1 = .first ∧ (p.enter block maxWidenings).2.Alike slack q := by
  unfold Path.enter
  dsimp only
  rw [hnew]
  refine ⟨rfl, h.vars, h.clear, h.typed, h.stack, h.arrays, fun other ho => ?_⟩
  have hne : (block, p.stack.topMarker?) ≠ other := by
    rintro rfl
    exact hb ho
  rw [Table.get?_insert, if_neg hne]
  exact h.visits other ho

end Path.Alike

end Symbolic
end FlowVerifier
