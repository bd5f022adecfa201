import FlowVerifier.Proofs.Symbolic.Description
import Mathlib

/-!
# Relations between variables and what the variables hold

A relation is recorded when it holds, and it counts for as long as the other side has the
version that it was recorded against.  This file runs sets of variables beside the values
that the variables hold, in any totally ordered domain, and shows that a relation that counts
holds, also after copies of variables were saved and brought back.

* `Tracked` is a set of variables with their values and with the saved copies.
* `Tracked.Op` are the changes: writes, new bindings, saved copies and their return, widening
  and new relations.  A `Family` is what comes about by changes and forks.
* `Tracked.Upheld` is the invariant: a relation was not recorded against a version still to
  come, and holds if that version is current.
* `current_relations_hold`: relations that count hold, as long as no version is the largest
  when it is advanced.  After the largest comes zero, and then a relation may count that was
  outdated long ago (`current_relations_revived`).
-/

namespace FlowVerifier
namespace Symbolic

/-- The relation was recorded against the version that its other side has. -/
def Scopes.IsCurrent (s : Scopes) (r : Relation) : Prop :=
  (s.get? r.other).map (·.version) = some r.version

theorem Scopes.mem_currentRelations {s : Scopes} {name : String} {r : Relation} :
    r ∈ s.currentRelations name ↔ ∃ v, s.get? name = some v ∧ r ∈ v.relations ∧ s.IsCurrent r := by
  unfold currentRelations IsCurrent
  cases s.get? name with
  | none => simp
  | some v => simp

/-! ## Variables and their values -/

/-- A set of variables, what the variables hold, and saved copies of variables with what they
held then. -/
structure Tracked (V : Type) where
  /-- The variables. -/
  vars : Scopes
  /-- What each name holds. -/
  value : String → V
  /-- Names with copies of their variables and what these held. -/
  saved : List (String × Variable × V) := []

namespace Tracked

variable {V : Type}

/-- A change of one set of variables. -/
inductive Op (V : Type) where
  /-- A variable is written and then holds `x`. -/
  | write (name : String) (value : Value) (change : Trend) (x : V)
  /-- A name is bound to a new variable, which holds `x`. -/
  | insert (name : String) (v : Variable) (x : V)
  /-- A copy of a variable is saved. -/
  | save (name : String)
  /-- A name is bound to a copy that was saved when it held `x`. -/
  | restore (name : String) (v : Variable) (x : V)
  /-- The variables are widened against older ones. -/
  | widen (old : Table String Variable)
  /-- A relation is recorded. -/
  | relate (lhs : String) (op : RelOp) (rhs : String)

/-- What a variable becomes by widening. -/
def widened (old : Table String Variable) (name : String) (v : Variable) : Variable :=
  (old.get? name).elim v (Path.widenVar · v)

namespace Op

/-- Carries a change out. -/
def apply (t : Tracked V) : Op V → Tracked V
  | write name value change x =>
    (t.vars.get? name).elim t fun _ =>
      { t with
        vars := t.vars.modify name (·.write value change)
        value := Function.update t.value name x }
  | insert name v x =>
    { t with vars := t.vars.insert name v, value := Function.update t.value name x }
  | save name =>
    (t.vars.get? name).elim t fun v => { t with saved := (name, v, t.value name) :: t.saved }
  | restore name v x =>
    { t with vars := t.vars.insert name v, value := Function.update t.value name x }
  | widen old => { t with vars := t.vars.mapAll (widened old) }
  | relate lhs op rhs => { t with vars := t.vars.relate lhs op rhs }

/-- New variables have no relations, only saved copies return, and only relations that hold
are recorded. -/
def Permitted [LinearOrder V] (t : Tracked V) : Op V → Prop
  | insert _ v _ => v.relations = []
  | restore name v x => (name, v, x) ∈ t.saved
  | relate lhs op rhs => op.holds (compare (t.value lhs) (t.value rhs)) = true
  | _ => True

/-- No version is the largest when it is advanced. -/
def Advancing (t : Tracked V) : Op V → Prop
  | write name _ _ _ => ∀ v, t.vars.get? name = some v → v.version + 1 ≠ 0
  | insert name _ _ => ∀ v, t.vars.get? name = some v → v.version + 1 ≠ 0
  | restore name _ _ => ∀ v, t.vars.get? name = some v → v.version + 1 ≠ 0
  | widen _ => ∀ name v, t.vars.get? name = some v → v.version + 1 ≠ 0
  | _ => True

end Op

/-- Both sides of a fork keep the values and the saved copies. -/
def fork (t : Tracked V) : Tracked V := { t with vars := t.vars.fork }

/-- The sets of variables that come about from an empty one by changes that are allowed and by
forks. -/
inductive Family (allowed : Tracked V → Op V → Prop) : List (Tracked V) → Prop where
  | start (value : String → V) : Family allowed [{ vars := .empty, value }]
  | change {sets : List (Tracked V)} {i : Nat} {t : Tracked V} {op : Op V}
      (h : Family allowed sets) (hi : sets[i]? = some t) (hop : allowed t op) :
      Family allowed (sets.set i (op.apply t))
  | fork {sets : List (Tracked V)} {i : Nat} {t : Tracked V} (h : Family allowed sets)
      (hi : sets[i]? = some t) : Family allowed (sets.set i t.fork ++ [t.fork])

/-! ## The invariant -/

section Invariant

variable [LinearOrder V] {t t' : Tracked V} {name : String} {v : Variable} {x : V}

/-- The relations of a variable that holds `x` were not recorded against versions still to
come, and those recorded against a current version hold. -/
def Upholds (t : Tracked V) (x : V) (v : Variable) : Prop :=
  ∀ r ∈ v.relations, ∃ w, t.vars.get? r.other = some w ∧ r.version ≤ w.version ∧
    (r.version = w.version → r.op.holds (compare x (t.value r.other)) = true)

/-- All relations of the variables and of the saved copies are upheld. -/
structure Upheld (t : Tracked V) : Prop where
  visible : ∀ name v, t.vars.get? name = some v → t.Upholds (t.value name) v
  saved : ∀ name v x, (name, v, x) ∈ t.saved → t.Upholds x v

theorem Upholds.of_nil (h : v.relations = []) : t.Upholds x v :=
  fun r hr => absurd hr (by simp [h])

/-- Every variable keeps its version and its value, or gets a later version. -/
def Outdates (t t' : Tracked V) : Prop :=
  ∀ name w, t.vars.get? name = some w → ∃ w', t'.vars.get? name = some w' ∧
    (w'.version = w.version ∧ t'.value name = t.value name ∨ w.version < w'.version)

/-- **Relations go stale or stay right** when versions advance. -/
theorem Upholds.outdate (h : t.Upholds x v) (ht : t.Outdates t') : t'.Upholds x v := by
  intro r hr
  obtain ⟨w, hw, hle, hcurrent⟩ := h r hr
  obtain ⟨w', hw', hstep⟩ := ht r.other w hw
  refine ⟨w', hw', ?_⟩
  rcases hstep with ⟨hversion, hvalue⟩ | hlt
  · rw [hversion, hvalue]
    exact ⟨hle, hcurrent⟩
  · have hnew : r.version < w'.version := UInt64.lt_of_le_of_lt hle hlt
    exact ⟨UInt64.le_of_lt hnew, fun heq => absurd (heq ▸ hnew) (UInt64.lt_irrefl _)⟩

/-- **A variable with a later version.**  What it holds may be anything. -/
theorem Upheld.rebind (h : t.Upheld) (hv : t.Upholds x v)
    (hvars : ∀ other, t'.vars.get? other = if name = other then some v else t.vars.get? other)
    (hversion : ∀ w, t.vars.get? name = some w → w.version < v.version)
    (hvalue : t'.value = Function.update t.value name x) (hsaved : t'.saved = t.saved) :
    t'.Upheld := by
  have hout : t.Outdates t' := by
    intro other w hw
    by_cases ho : name = other
    · subst ho
      exact ⟨v, by rw [hvars, if_pos rfl], .inr (hversion w hw)⟩
    · refine ⟨w, by rw [hvars, if_neg ho, hw], .inl ⟨rfl, ?_⟩⟩
      rw [hvalue, Function.update_of_ne (Ne.symm ho)]
  refine ⟨fun other w hw => ?_, fun other w y hmem => ?_⟩
  · rw [hvars] at hw
    by_cases ho : name = other
    · subst ho
      rw [if_pos rfl, Option.some.injEq] at hw
      subst hw
      rw [hvalue, Function.update_self]
      exact hv.outdate hout
    · rw [if_neg ho] at hw
      rw [hvalue, Function.update_of_ne (Ne.symm ho)]
      exact (h.visible other w hw).outdate hout
  · rw [hsaved] at hmem
    exact (h.saved other w y hmem).outdate hout

/-- A name that is bound, to a new variable or to a copy that was saved. -/
theorem Upheld.insert (h : t.Upheld) (hv : t.Upholds x v)
    (hlast : ∀ w, t.vars.get? name = some w → w.version + 1 ≠ 0) :
    ({ t with vars := t.vars.insert name v, value := Function.update t.value name x } :
      Tracked V).Upheld := by
  have hnew : t.Upholds x ((t.vars.get? name).elim v fun old =>
      { v with version := max v.version (old.version + 1) }) := by
    cases t.vars.get? name <;> exact hv
  refine h.rebind hnew (fun other => Scopes.get?_insert ..) (fun w hw => ?_) rfl rfl
  rw [hw]
  exact lt_max_next (hlast w hw) v.version

theorem Upheld.write (h : t.Upheld) {value : Value} {change : Trend}
    (hv : t.vars.get? name = some v) (hlast : v.version + 1 ≠ 0) :
    ({ t with
      vars := t.vars.modify name (·.write value change)
      value := Function.update t.value name x } : Tracked V).Upheld := by
  refine h.rebind (v := v.write value change) (Upholds.of_nil rfl) (fun other => ?_)
    (fun w hw => ?_) rfl rfl
  · rw [Scopes.get?_modify]
    by_cases ho : name = other
    · subst ho
      rw [if_pos rfl, if_pos rfl, hv]
      rfl
    · rw [if_neg ho, if_neg ho]
  · obtain rfl := Option.some.inj (hv.symm.trans hw)
    exact lt_next hlast

theorem Upheld.save (h : t.Upheld) (hv : t.vars.get? name = some v) :
    ({ t with saved := (name, v, t.value name) :: t.saved } : Tracked V).Upheld := by
  refine ⟨h.visible, fun other w y hmem => ?_⟩
  rcases List.mem_cons.1 hmem with heq | hmem
  · obtain ⟨rfl, rfl, rfl⟩ : other = name ∧ w = v ∧ y = t.value name := by simpa using heq
    exact h.visible other w hv
  · exact h.saved other w y hmem

/-- Widening keeps a variable's relations and its version, or drops and advances them. -/
theorem widened_cases (old : Table String Variable) (name : String) (v : Variable) :
    (widened old name v).version = v.version ∧ (widened old name v).relations = v.relations ∨
      (widened old name v).version = v.version + 1 ∧ (widened old name v).relations = [] := by
  unfold widened
  cases old.get? name with
  | none => exact .inl ⟨rfl, rfl⟩
  | some o =>
      rw [Option.elim_some, Path.widenVar]
      dsimp only
      split
      · split
        · exact .inl ⟨rfl, rfl⟩
        · exact .inr ⟨rfl, rfl⟩
      · exact .inl ⟨rfl, rfl⟩

theorem Upheld.widen (h : t.Upheld) (old : Table String Variable)
    (hlast : ∀ name v, t.vars.get? name = some v → v.version + 1 ≠ 0) :
    ({ t with vars := t.vars.mapAll (widened old) } : Tracked V).Upheld := by
  have hout : t.Outdates { t with vars := t.vars.mapAll (widened old) } := by
    intro name w hw
    refine ⟨widened old name w, by rw [Scopes.get?_mapAll, hw, Option.map_some], ?_⟩
    rcases widened_cases old name w with ⟨hversion, -⟩ | ⟨hversion, -⟩
    · exact .inl ⟨hversion, rfl⟩
    · exact .inr (hversion ▸ lt_next (hlast name w hw))
  refine ⟨fun name w hw => ?_, fun name w y hmem => (h.saved name w y hmem).outdate hout⟩
  rw [Scopes.get?_mapAll] at hw
  obtain ⟨v, hv, rfl⟩ := Option.map_eq_some_iff.1 hw
  rcases widened_cases old name v with ⟨-, hrelations⟩ | ⟨-, hrelations⟩
  · intro r hr
    rw [hrelations] at hr
    exact (h.visible name v hv).outdate hout r hr
  · exact .of_nil hrelations

/-- One side of a relation is told of it. -/
theorem Upheld.tell (h : t.Upheld) (name : String) (op : RelOp) {other : String} {w : Variable}
    (hw : t.vars.get? other = some w)
    (hop : op.holds (compare (t.value name) (t.value other)) = true) :
    ({ t with vars := t.vars.modify name (·.relate op other w.version) } : Tracked V).Upheld := by
  have hout : t.Outdates { t with vars := t.vars.modify name (·.relate op other w.version) } := by
    intro a u hu
    by_cases ha : name = a
    · exact ⟨u.relate op other w.version,
        by rw [Scopes.get?_modify, if_pos ha, hu, Option.map_some], .inl ⟨rfl, rfl⟩⟩
    · exact ⟨u, by rw [Scopes.get?_modify, if_neg ha, hu], .inl ⟨rfl, rfl⟩⟩
  refine ⟨fun a u hu => ?_, fun a u y hmem => (h.saved a u y hmem).outdate hout⟩
  rw [Scopes.get?_modify] at hu
  by_cases ha : name = a
  · subst ha
    rw [if_pos rfl] at hu
    obtain ⟨v, hv, rfl⟩ := Option.map_eq_some_iff.1 hu
    intro r hr
    rcases List.mem_append.1 hr with hr | hr
    · exact (h.visible name v hv).outdate hout r (List.mem_of_mem_filter hr)
    · obtain rfl : r = ⟨op, other, w.version⟩ := by simpa using hr
      have htold : t.Upholds (t.value name)
          { v with relations := [⟨op, other, w.version⟩] } := by
        intro r hr
        obtain rfl : r = ⟨op, other, w.version⟩ := by simpa using hr
        exact ⟨w, hw, UInt64.le_refl _, fun _ => hop⟩
      exact htold.outdate hout _ (by simp)
  · rw [if_neg ha] at hu
    exact (h.visible a u hu).outdate hout

theorem holds_flip {op : RelOp} {a b : V} (h : op.holds (compare a b) = true) :
    op.flip.holds (compare b a) = true := by
  rcases lt_trichotomy a b with hlt | rfl | hgt
  · rw [compare_lt_iff_lt.2 hlt] at h
    rw [compare_gt_iff_gt.2 hlt]
    cases op <;> simp_all [RelOp.holds, RelOp.flip]
  · rw [compare_eq_iff_eq.2 rfl] at h ⊢
    cases op <;> simp_all [RelOp.holds, RelOp.flip]
  · rw [compare_gt_iff_gt.2 hgt] at h
    rw [compare_lt_iff_lt.2 hgt]
    cases op <;> simp_all [RelOp.holds, RelOp.flip]

theorem Upheld.relate (h : t.Upheld) {lhs rhs : String} {op : RelOp}
    (hop : op.holds (compare (t.value lhs) (t.value rhs)) = true) :
    ({ t with vars := t.vars.relate lhs op rhs } : Tracked V).Upheld := by
  unfold Scopes.relate
  split
  · exact h
  cases hl : t.vars.get? lhs with
  | none => exact h
  | some l =>
      cases hr : t.vars.get? rhs with
      | none => exact h
      | some r =>
          have hleft := h.tell lhs op hr hop
          -- being told of a relation does not change the version on the left
          have hl' : (t.vars.modify lhs (·.relate op rhs r.version)).get? lhs =
              some (l.relate op rhs r.version) := by
            rw [Scopes.get?_modify, if_pos rfl, hl, Option.map_some]
          have hboth := hleft.tell rhs op.flip hl' (holds_flip hop)
          exact hboth

/-- **One change** keeps the invariant. -/
theorem Upheld.apply (h : t.Upheld) {op : Op V} (hop : op.Permitted t) (hlast : op.Advancing t) :
    (op.apply t).Upheld := by
  cases op with
  | write name value change x =>
      show ((t.vars.get? name).elim t fun _ =>
        { t with
          vars := t.vars.modify name (·.write value change)
          value := Function.update t.value name x }).Upheld
      cases hv : t.vars.get? name with
      | none => exact h
      | some v => exact h.write hv (hlast v hv)
  | insert name v x => exact h.insert (.of_nil hop) hlast
  | save name =>
      show ((t.vars.get? name).elim t fun v =>
        { t with saved := (name, v, t.value name) :: t.saved }).Upheld
      cases hv : t.vars.get? name with
      | none => exact h
      | some v => exact h.save hv
  | restore name v x => exact h.insert (h.saved name v x hop) hlast
  | widen old => exact h.widen old hlast
  | relate lhs op rhs => exact h.relate hop

theorem Upheld.fork (h : t.Upheld) : t.fork.Upheld := by
  have hout : t.Outdates t.fork :=
    fun name w hw => ⟨w, (Scopes.get?_fork t.vars name).trans hw, .inl ⟨rfl, rfl⟩⟩
  refine ⟨fun name v hv => ?_, fun name v x hmem => (h.saved name v x hmem).outdate hout⟩
  exact (h.visible name v ((Scopes.get?_fork t.vars name).symm.trans hv)).outdate hout

/-- **All changes** keep the invariant. -/
theorem Family.upheld {sets : List (Tracked V)}
    (h : Family (fun t op => op.Permitted t ∧ op.Advancing t) sets) : ∀ t ∈ sets, t.Upheld := by
  induction h with
  | start value =>
      intro t ht
      obtain rfl := List.mem_singleton.1 ht
      exact ⟨fun _ _ hv => absurd hv (by simp [Scopes.empty, Scopes.get?]), by simp⟩
  | change _ hi hop ih =>
      intro t ht
      rcases List.mem_or_eq_of_mem_set ht with hmem | rfl
      · exact ih t hmem
      · exact (ih _ (List.mem_of_getElem? hi)).apply hop.1 hop.2
  | fork _ hi ih =>
      have hfork := (ih _ (List.mem_of_getElem? hi)).fork
      intro t ht
      rcases List.mem_append.1 ht with hmem | hmem
      · rcases List.mem_or_eq_of_mem_set hmem with hmem | rfl
        · exact ih t hmem
        · exact hfork
      · obtain rfl := List.mem_singleton.1 hmem
        exact hfork

/-- What counts of relations that are upheld holds. -/
theorem Upholds.holds {r : Relation} (h : t.Upholds x v) (hr : r ∈ v.relations)
    (hcurrent : t.vars.IsCurrent r) : r.op.holds (compare x (t.value r.other)) = true := by
  obtain ⟨w, hw, -, hsound⟩ := h r hr
  rw [Scopes.IsCurrent, hw, Option.map_some, Option.some.injEq] at hcurrent
  exact hsound hcurrent.symm

/-- **Relations that count hold.**  After all changes and forks in which no version was the
largest when it was advanced, every relation that counts for a variable holds between what the
variables hold, and every relation of a saved copy that counts holds from what the variable
held when it was saved. -/
theorem current_relations_hold {sets : List (Tracked V)}
    (h : Family (fun t op => op.Permitted t ∧ op.Advancing t) sets) (t : Tracked V)
    (ht : t ∈ sets) :
    (∀ name, ∀ r ∈ t.vars.currentRelations name,
      r.op.holds (compare (t.value name) (t.value r.other)) = true) ∧
    ∀ name v x, (name, v, x) ∈ t.saved → ∀ r ∈ v.relations, t.vars.IsCurrent r →
      r.op.holds (compare x (t.value r.other)) = true := by
  have hupheld := h.upheld t ht
  refine ⟨fun name r hr => ?_, fun name v x hmem r hr hcurrent => ?_⟩
  · obtain ⟨v, hv, hmem, hcurrent⟩ := Scopes.mem_currentRelations.1 hr
    exact (hupheld.visible name v hv).holds hmem hcurrent
  · exact (hupheld.saved name v x hmem).holds hr hcurrent

end Invariant

/-! ## A copy that returns, and a version that returns -/

/-- All changes of a list are allowed, one after the other. -/
def Allows (allowed : Tracked V → Op V → Prop) (t : Tracked V) : List (Op V) → Prop
  | [] => True
  | op :: ops => allowed t op ∧ Allows allowed (op.apply t) ops

theorem Family.changes {allowed : Tracked V → Op V → Prop} {t : Tracked V} {ops : List (Op V)}
    (h : Family allowed [t]) (hops : Allows allowed t ops) :
    Family allowed [ops.foldl Op.apply t] := by
  induction ops generalizing t with
  | nil => exact h
  | cons op ops ih => exact ih (h.change (i := 0) rfl hops.1) hops.2

theorem advances_of_all {t : Tracked V} {name : String}
    (h : ((t.vars.get? name).all fun v => v.version + 1 != 0) = true) :
    ∀ v, t.vars.get? name = some v → v.version + 1 ≠ 0 := by
  intro v hv
  rw [hv, Option.all_some, bne_iff_ne] at h
  exact h

/-- Two numbers, the first below the second.  The first is saved, overwritten and brought
back. -/
def broughtBack : List (Op Nat) :=
  [.insert "x" (.declared .double) 1, .insert "y" (.declared .double) 2, .relate "x" .lt "y",
    .save "x", .write "x" (.full .double) .unpredictable 5,
    .restore "x" { Variable.declared .double with relations := [⟨.lt, "y", 0⟩] } 1]

/-- The relation of the copy that came back counts again, and it holds. -/
theorem current_relations_hold_broughtBack :
    ∃ t : Tracked Nat, Family (fun t op => op.Permitted t ∧ op.Advancing t) [t] ∧
      ⟨.lt, "y", 0⟩ ∈ t.vars.currentRelations "x" ∧
      RelOp.lt.holds (compare (t.value "x") (t.value "y")) = true := by
  have hfamily : Family (fun t op => op.Permitted t ∧ op.Advancing t)
      [broughtBack.foldl Op.apply { vars := .empty, value := fun _ => 0 }] := by
    refine (Family.start _).changes ⟨⟨rfl, advances_of_all rfl⟩, ⟨rfl, advances_of_all rfl⟩,
      ⟨rfl, trivial⟩, ⟨trivial, trivial⟩, ⟨trivial, advances_of_all rfl⟩,
      ⟨?_, advances_of_all rfl⟩, trivial⟩
    exact List.mem_cons_self
  have hcurrent : (⟨.lt, "y", 0⟩ : Relation) ∈ (broughtBack.foldl Op.apply
      { vars := .empty, value := fun _ => 0 } : Tracked Nat).vars.currentRelations "x" := by
    decide
  exact ⟨_, hfamily, hcurrent,
    (current_relations_hold hfamily _ List.mem_cons_self).1 "x" _ hcurrent⟩

/-- `y` is written once more after it was equal to `x`. -/
def overwritten (version : Version) : Tracked Nat where
  vars := { inner := ⟨[
    ("x", { Variable.declared .double with relations := [⟨.eq, "y", 0⟩] }),
    ("y", ⟨.double, .full .double, true, .unpredictable, version, []⟩)]⟩ }
  value name := if name = "y" then 2 else if name = "x" then 1 else 0

theorem apply_overwritten (version : Version) :
    (Op.write "y" (.full .double) .unpredictable 2).apply (overwritten version) =
      overwritten (version + 1) := by
  have hvalue : Function.update (overwritten version).value "y" 2 = (overwritten version).value :=
    Function.update_eq_self_iff.2 rfl
  show Tracked.mk _ (Function.update (overwritten version).value "y" 2) _ = _
  rw [hvalue]
  rfl

theorem family_overwritten (n : Nat) :
    Family (fun t op => op.Permitted t) [overwritten (UInt64.ofNat (n + 1))] := by
  induction n with
  | zero =>
      have hvalue : Function.update (Function.update (Function.update (fun _ => 0) "x" 1) "y" 1)
          "y" 2 = (overwritten 1).value := by
        rw [Function.update_idem]
        funext name
        simp [Function.update_apply, overwritten]
      have hstate : [Op.insert "x" (.declared .double) 1, .insert "y" (.declared .double) 1,
          .relate "x" .eq "y", .write "y" (.full .double) .unpredictable 2].foldl Op.apply
          { vars := .empty, value := fun _ => 0 } = overwritten 1 :=
        congrArg (fun value => Tracked.mk (overwritten 1).vars value []) hvalue
      show Family _ [overwritten 1]
      rw [← hstate]
      exact (Family.start _).changes ⟨rfl, rfl, rfl, trivial, trivial⟩
  | succ n ih =>
      rw [UInt64.ofNat_add (n + 1) 1]
      show Family _ [overwritten (UInt64.ofNat (n + 1) + 1)]
      rw [← apply_overwritten]
      exact ih.change (i := 0) rfl trivial

/-- The variable `y` gets its largest version twice. -/
def reissued : List (Op Nat) :=
  [.insert "y" { Variable.declared .double with version := -1 } 1,
    .insert "x" (.declared .double) 1, .relate "x" .eq "y",
    .write "y" (.full .double) .unpredictable 2,
    .insert "y" { Variable.declared .double with version := -1 } 3]

/-- **Versions return.**  After as many writes as there are versions, or sooner if a variable
starts with the largest version, a relation counts that does not hold. -/
theorem current_relations_revived :
    (∃ t : Tracked Nat, Family (fun t op => op.Permitted t) [t] ∧
      ⟨.eq, "y", 0⟩ ∈ t.vars.currentRelations "x" ∧
      RelOp.eq.holds (compare (t.value "x") (t.value "y")) = false) ∧
    ∃ t : Tracked Nat, Family (fun t op => op.Permitted t) [t] ∧
      ⟨.eq, "y", -1⟩ ∈ t.vars.currentRelations "x" ∧
      RelOp.eq.holds (compare (t.value "x") (t.value "y")) = false := by
  constructor
  · have hzero : UInt64.ofNat (2 ^ 64 - 1 + 1) = 0 := by decide
    exact ⟨overwritten 0, hzero ▸ family_overwritten (2 ^ 64 - 1), by decide, by decide⟩
  · exact ⟨reissued.foldl Op.apply { vars := .empty, value := fun _ => 0 },
      (Family.start _).changes ⟨rfl, rfl, rfl, trivial, rfl, trivial⟩, by decide, by decide⟩

end Tracked
end Symbolic
end FlowVerifier
