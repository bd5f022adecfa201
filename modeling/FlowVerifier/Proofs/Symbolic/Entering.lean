import FlowVerifier.Proofs.Symbolic.Transfer
import FlowVerifier.Proofs.Symbolic.Versions
import Mathlib

/-!
# Entering a block

A path that comes back to a block is compared with the state on record, and where it is not
covered it is widened.  This file shows that a path goes on describing the states that it
described, and that what it was widened against is covered from then on.

* `Variable.Describes.widen`, `Stack.forall₂_widenFrame` and `Path.Describes.widenFrom`:
  widening loses no state.  A variable whose value was widened gets a new version, which
  outdates the relations to it.
* `Path.enter_cases`: what becomes of a path that enters a block.
* `enter_generalises`: whatever the outcome is, the states stay described, and a widening
  covers the state on record and uses up a part of the budget.
* `enter_revives`: the version after the largest is zero, and a relation that was recorded
  against the first version of a variable counts again.
-/

namespace FlowVerifier

open Run

namespace Symbolic

open Exec

variable {p q : Path} {s : State} {old : Snapshot} {vars : Scopes}
  {held : String → Option Literal} {l : Literal} {v : Variable}

/-! ## States on record -/

/-- The variables have values of their types, and the arrays come about by the operations on
arrays. -/
structure Snapshot.Built (old : Snapshot) : Prop where
  typed : ∀ name v, old.vars.get? name = some v → v.value.type = v.type
  arrays : ∀ name a, old.arrays.get? name = some a → a.Built

/-- All states on record are built. -/
def Path.RecordsBuilt (p : Path) : Prop :=
  ∀ key r, p.visits.get? key = some r → r.snapshot.Built

theorem Variable.Describes.type_value (h : v.Describes vars held l) : v.value.type = v.type :=
  (Value.type_of_contains h.value).trans h.type.symm

theorem Path.Describes.snapshot_built (h : p.Describes s) (hb : p.ArraysBuilt) :
    p.snapshot.Built := by
  refine ⟨fun name v hv => ?_, hb⟩
  have hvar : p.var? name = some v := (Scopes.get?_visible _ _).symm.trans hv
  obtain ⟨l, -, hd⟩ := h.of_var? hvar
  exact hd.type_value

/-! ## Widening -/

theorem type_widenVar (o v : Variable) : (Path.widenVar o v).type = v.type := by
  unfold Path.widenVar
  split
  · dsimp only
    split <;> rfl
  · rfl

/-- Widening a variable keeps its values. -/
theorem contains_widenVar (o : Variable) (h : v.value.contains l = true) :
    (Path.widenVar o v).value.contains l = true := by
  unfold Path.widenVar
  split
  · dsimp only
    split
    · exact h
    · exact Value.contains_widen o.value h
  · exact h

/-- **Widening covers the older variable**, if it is of the same type. -/
theorem contains_widenVar_left {o : Variable} (ht : o.type = v.type)
    (hvalue : o.value.type = v.value.type) (h : o.value.contains l = true) :
    (Path.widenVar o v).value.contains l = true := by
  have hwiden := Value.contains_widen_left hvalue h
  unfold Path.widenVar
  rw [if_pos ht]
  dsimp only
  split
  · rename_i heq
    -- the value stays, for it has the same bounds
    exact Value.contains_of_beq (Value.beq_symm heq) hwiden
  · exact hwiden

theorem Variable.Describes.widen (h : v.Describes vars held l) (o : Table String Variable)
    (name : String) : (Tracked.widened o name v).Describes vars held l := by
  refine ⟨?_, ?_, ?_⟩
  · rw [← h.type]
    unfold Tracked.widened
    cases o.get? name with
    | none => rfl
    | some w => exact type_widenVar w v
  · unfold Tracked.widened
    cases o.get? name with
    | none => exact h.value
    | some w => exact contains_widenVar w h.value
  · rcases Tracked.widened_cases o name v with ⟨-, hrelations⟩ | ⟨-, hrelations⟩
    · rw [hrelations]
      exact h.relations
    · intro r hr
      rw [hrelations] at hr
      exact absurd hr List.not_mem_nil

theorem StackEntry.Describes.widen {e : StackEntry} {f : Entry} (h : e.Describes vars held f)
    (o : StackEntry) : (o.widen e).Describes vars held f := by
  unfold StackEntry.widen
  split
  · rename_i source v w
    split
    · cases f with
      | value source' k =>
          have hd : w.Describes vars held k := h
          exact ⟨hd.type, Value.contains_widen _ hd.value,
            fun r hr => absurd hr List.not_mem_nil⟩
      | marker b => exact h
    · exact h
  · exact h

/-- What widening keeps of a slot, it keeps of the topmost slots one by one. -/
theorem forall₂_zipWith_widen {R : StackEntry → Entry → Prop} {entries : List Entry}
    (hR : ∀ (o e : StackEntry) f, R e f → R (o.widen e) f) (olds news rest : List StackEntry)
    (hlength : news.length = olds.length) (h : List.Forall₂ R (news ++ rest) entries) :
    List.Forall₂ R (List.zipWith StackEntry.widen olds news ++ rest) entries := by
  induction news generalizing olds entries with
  | nil =>
      obtain rfl := List.length_eq_zero_iff.1 hlength.symm
      exact h
  | cons e news ih =>
      cases olds with
      | nil => exact absurd hlength (by simp)
      | cons o olds =>
          cases h with
          | cons hhead htail =>
              exact .cons (hR o e _ hhead) (ih olds (by simpa using hlength) htail)

/-- What widening keeps of a slot, it keeps of a stack. -/
theorem Stack.forall₂_widenFrame {R : StackEntry → Entry → Prop} {t : Stack}
    {entries : List Entry} (hR : ∀ (o e : StackEntry) f, R e f → R (o.widen e) f)
    (h : List.Forall₂ R t.entries entries) (o : Stack) :
    List.Forall₂ R (t.widenFrame o).entries entries := by
  unfold Stack.widenFrame
  split
  · rename_i hlength
    refine forall₂_zipWith_widen hR o.frame t.frame t.belowFrame hlength ?_
    rw [Stack.frame, Stack.belowFrame, List.takeWhile_append_dropWhile]
    exact h
  · exact h

namespace Path

theorem var?_widenFrom (p : Path) (old : Snapshot) (name : String) :
    (p.widenFrom old).var? name = (p.var? name).map (Tracked.widened old.vars name) :=
  Scopes.get?_mapAll _ _ _

theorem ArraysBuilt.widenFrom (hb : p.ArraysBuilt) (hold : old.Built) :
    (p.widenFrom old).ArraysBuilt := by
  intro name a ha
  change (p.arrays.map _).get? name = some a at ha
  rw [Table.get?_map] at ha
  obtain ⟨b, hget, rfl⟩ := Option.map_eq_some_iff.1 ha
  cases ho : old.arrays.get? name with
  | none => exact hb name b hget
  | some o => exact .widen (hold.arrays name o ho) (hb name b hget)

/-- **Widening** loses no state, if no version that it advances is the largest. -/
theorem Describes.widenFrom (h : p.Describes s) (hb : p.ArraysBuilt) (hold : old.Built)
    (hlast : ∀ name v w, p.var? name = some v → (p.widenFrom old).var? name = some w →
      w.version ≠ v.version → p.CanAdvance name) : (p.widenFrom old).Describes s := by
  have ha : Advances p.vars s.vars (p.widenFrom old).vars s.vars := by
    intro name w m hw hm
    have hwide : (p.widenFrom old).var? name = some (Tracked.widened old.vars name w) := by
      rw [var?_widenFrom, show p.var? name = some w from hw, Option.map_some]
    refine ⟨_, m, hwide, hm, ?_⟩
    rcases Tracked.widened_cases old.vars name w with ⟨hversion, -⟩ | ⟨hversion, -⟩
    · exact .inl ⟨hversion, rfl⟩
    · by_cases hsame : (Tracked.widened old.vars name w).version = w.version
      · exact .inl ⟨hsame, rfl⟩
      · exact .inr (hversion ▸ (hlast name w _ hw hwide hsame).lt hw)
  refine ⟨fun name => ?_, fun name => ?_, ?_⟩
  · rw [var?_widenFrom]
    cases hl : s.vars name with
    | none =>
        rw [h.var?_eq_none hl]
        exact .none
    | some l =>
        obtain ⟨v, hv, hd⟩ := h.of_held hl
        rw [hv]
        exact .some ((hd.widen old.vars name).advance ha)
  · show Option.Rel _ ((p.arrays.map _).get? name) (s.arrays name)
    rw [Table.get?_map]
    have harray := h.arrays name
    generalize hget : p.arrays.get? name = a, s.arrays name = c at harray
    cases harray with
    | none => exact .none
    | some hc =>
        refine .some ?_
        cases ho : old.arrays.get? name with
        | none => exact hc
        | some o => exact hc.widen (hold.arrays name o ho).wellFormed (hb name _ hget).wellFormed
  · refine Stack.forall₂_widenFrame ?_ (h.stack.imp fun _ _ => StackEntry.Describes.advance ha) _
    exact fun o _ _ hd => StackEntry.Describes.widen hd o

/-! ## Entering -/

/-- **What becomes of a path that enters a block.**  It is recorded where there is no record,
it stays as it is, or it is widened against the record, which is then renewed. -/
theorem enter_cases (p : Path) (block : BlockId) (maxWidenings : Nat) :
    (p.enter block maxWidenings = (.first,
      { p with
        depth := p.depth + 1
        visits := p.visits.insert (block, p.stack.topMarker?)
          ⟨p.snapshot, 0, p.stack.callDepth⟩ })) ∨
    (∃ r, r ≠ .widened ∧ p.enter block maxWidenings = (r, { p with depth := p.depth + 1 })) ∨
    ∃ record, p.visits.get? (block, p.stack.topMarker?) = some record ∧
      record.widenings < maxWidenings ∧
      p.enter block maxWidenings = (.widened,
        { p.widenFrom record.snapshot with
          depth := p.depth + 1
          visits := p.visits.insert (block, p.stack.topMarker?)
            ⟨(p.widenFrom record.snapshot).snapshot, record.widenings + 1,
              min record.callDepth p.stack.callDepth⟩ }) := by
  unfold enter
  dsimp only
  cases hrecord : p.visits.get? (block, p.stack.topMarker?) with
  | none => exact .inl rfl
  | some record =>
      dsimp only
      split
      · exact .inr (.inl ⟨.unwound, by decide, rfl⟩)
      · split
        · refine .inr (.inl ⟨_, ?_, rfl⟩)
          split <;> decide
        · split
          · exact .inr (.inl ⟨.exhausted, by decide, rfl⟩)
          · rename_i hbudget
            exact .inr (.inr ⟨record, rfl, Nat.lt_of_not_le hbudget, rfl⟩)

theorem RecordsBuilt.insert (hr : p.RecordsBuilt) {key : BlockId × Option BlockId}
    {record : VisitRecord} (hrecord : record.snapshot.Built)
    (hq : q.visits = p.visits.insert key record) : q.RecordsBuilt := by
  intro other r hget
  rw [hq, Table.get?_insert] at hget
  split at hget
  · cases hget
    exact hrecord
  · exact hr other r hget

/-- The states stay described, and arrays and records stay built. -/
theorem Describes.enter (block : BlockId) (maxWidenings : Nat) (hb : p.ArraysBuilt)
    (hr : p.RecordsBuilt) (h : p.Describes s)
    (hlast : ∀ name v w, p.var? name = some v →
      (p.enter block maxWidenings).2.var? name = some w → w.version ≠ v.version →
      p.CanAdvance name) :
    (p.enter block maxWidenings).2.ArraysBuilt ∧ (p.enter block maxWidenings).2.RecordsBuilt ∧
      (p.enter block maxWidenings).2.Describes s := by
  rcases p.enter_cases block maxWidenings with heq | ⟨r, -, heq⟩ | ⟨record, hget, -, heq⟩
  · rw [heq]
    exact ⟨hb, hr.insert (h.snapshot_built hb) rfl, h.scalars, h.arrays, h.stack⟩
  · rw [heq]
    exact ⟨hb, hr, h.scalars, h.arrays, h.stack⟩
  · rw [heq] at hlast ⊢
    have hold := hr _ record hget
    have hwide : (p.widenFrom record.snapshot).Describes s := h.widenFrom hb hold hlast
    have hbuilt := hb.widenFrom hold
    exact ⟨hbuilt, hr.insert (hwide.snapshot_built hbuilt) rfl, hwide.scalars, hwide.arrays,
      hwide.stack⟩

/-- **Entering a block loses no state**, whatever the outcome is, if no version that it
advances is the largest.  After a widening, the record covers all values that the former record
had for a variable of the same type, and the number of widenings has grown by one, within the
budget. -/
theorem enter_generalises (block : BlockId) (maxWidenings : Nat) (hb : p.ArraysBuilt)
    (hr : p.RecordsBuilt) (h : p.Describes s)
    (hlast : ∀ name v w, p.var? name = some v →
      (p.enter block maxWidenings).2.var? name = some w → w.version ≠ v.version →
      p.CanAdvance name) :
    ((p.enter block maxWidenings).2.ArraysBuilt ∧ (p.enter block maxWidenings).2.RecordsBuilt ∧
      (p.enter block maxWidenings).2.Describes s) ∧
    ((p.enter block maxWidenings).1 = .widened →
      ∃ former renewed,
        p.visits.get? (block, p.stack.topMarker?) = some former ∧
        (p.enter block maxWidenings).2.visits.get? (block, p.stack.topMarker?) = some renewed ∧
        (∀ name v w, former.snapshot.vars.get? name = some v →
          renewed.snapshot.vars.get? name = some w → v.type = w.type →
          ∀ l, v.value.contains l = true → w.value.contains l = true) ∧
        renewed.widenings = former.widenings + 1 ∧ renewed.widenings ≤ maxWidenings) := by
  refine ⟨h.enter block maxWidenings hb hr hlast, fun hwidened => ?_⟩
  rcases p.enter_cases block maxWidenings with heq | ⟨r, hne, heq⟩ | ⟨record, hget, hlt, heq⟩
  · rw [heq] at hwidened
    cases hwidened
  · rw [heq] at hwidened
    exact absurd hwidened hne
  · rw [heq]
    refine ⟨record, ⟨(p.widenFrom record.snapshot).snapshot, record.widenings + 1,
      min record.callDepth p.stack.callDepth⟩, hget, by rw [Table.get?_insert, if_pos rfl], ?_,
      rfl, hlt⟩
    intro name v w hv hw ht l hl
    -- the variable on the new record is the widened one
    have hw : (p.widenFrom record.snapshot).var? name = some w :=
      (Scopes.get?_visible _ _).symm.trans hw
    rw [var?_widenFrom] at hw
    obtain ⟨u, hu, rfl⟩ := Option.map_eq_some_iff.1 hw
    obtain ⟨m, -, hd⟩ := h.of_var? hu
    have hvalue := (hr _ record hget).typed name v hv
    rw [Tracked.widened, hv] at ht ⊢
    rw [Option.elim_some, type_widenVar] at ht
    exact contains_widenVar_left ht (hvalue.trans (ht.trans hd.type_value.symm)) hl

end Path

/-! ## A widening, and a version that comes back -/

/-- The path that instructions lead to from another. -/
def Path.after (instructions : List Instruction) (p : Path) : Path :=
  (runOn (executeAll (fun _ => none) "main" instructions) p).2.path

/-- Makes `x` equal to `y` and enters a block. -/
def met : Path := ((pathAfter (flooding 0)).enter 0 1).2

/-- Saves a number, and writes `y` over and over. -/
def overwriting (n : Nat) : List Instruction :=
  .push (.literal (.number .zero)) :: List.replicate n (.assign "y" (.literal (.number .one)))

/-- A path that goes on from `met` with a value for `y`. -/
def overwritten (y : Variable) : Path where
  vars := ⟨⟨[("y", y),
    ("x", ⟨.double, .full .double, true, .unpredictable, 1, [⟨.eq, "y", 0⟩]⟩)]⟩, []⟩
  stack := ⟨[.value none ⟨.double, .number (.point .zero), true, .untouched, 0, []⟩]⟩
  depth := 1
  visits := ⟨[((0, none), ⟨met.snapshot, 0, 0⟩)]⟩

/-- The value one, in some version. -/
def onesIn (version : Version) : Variable :=
  ⟨.double, .number (.point .one), true, .unpredictable, version, []⟩

theorem outcome_overwriting (n : Nat) :
    ∃ ws, outcome (executeAll (fun _ => none) "main" (overwriting (n + 1))) ⟨met, #[]⟩ =
      (.ok (), ⟨overwritten (onesIn (.ofNat (n + 1))), ws⟩) := by
  induction n with
  | zero => exact ⟨_, rfl⟩
  | succ n ih =>
      obtain ⟨ws, ih⟩ := ih
      have happ : overwriting (n + 2) =
          overwriting (n + 1) ++ [.assign "y" (.literal (.number .one))] := by
        rw [overwriting, overwriting, List.replicate_succ', List.cons_append]
      have hstep : outcome (execute (fun _ => none) "main" (.assign "y" (.literal (.number .one))))
          ⟨overwritten (onesIn (.ofNat (n + 1))), ws⟩ =
          (.ok (), ⟨overwritten (onesIn (.ofNat (n + 1) + 1)), ws⟩) := rfl
      refine ⟨ws, ?_⟩
      rw [happ, executeAll_concat, outcome_bind_ok ih, hstep]
      simp [UInt64.ofNat_add]

theorem after_overwriting {n : Nat} (hn : 0 < n) :
    met.after (overwriting n) = overwritten (onesIn (.ofNat n)) := by
  obtain ⟨m, rfl⟩ := Nat.exists_eq_add_of_lt hn
  obtain ⟨ws, h⟩ := outcome_overwriting (0 + m)
  exact congrArg (fun r => r.2.path) h

/-- A state in which `x` and `y` differ. -/
def metState : State where
  vars name := if name = "y" then some (.number .one) else
    if name = "x" then some (.number .zero) else none
  stack := [.value none (.number .zero)]

theorem overwritten_describes {version : Version} (h : version ≠ 0) :
    (overwritten (onesIn version)).Describes metState := by
  refine ⟨fun name => ?_, fun _ => .none,
    .cons ⟨rfl, by decide, fun _ hr => absurd hr (by simp)⟩ .nil⟩
  simp only [Path.var?, overwritten, Scopes.get?, List.findSome?, Table.get?, Table.find, metState]
  by_cases hy : "y" = name
  · subst hy
    exact .some ⟨rfl, (by decide : (Value.number (.point .one)).contains (.number .one) = true),
      fun _ hr => absurd hr (by simp [onesIn])⟩
  · by_cases hx : "x" = name
    · subst hx
      refine .some ⟨rfl, rfl, fun r hr => ?_⟩
      obtain rfl : r = ⟨.eq, "y", 0⟩ := by simpa using hr
      exact ⟨_, _, rfl, rfl, UInt64.zero_le, fun heq => absurd heq.symm h⟩
    · rw [if_neg hy, if_neg hx, if_neg (Ne.symm hy), if_neg (Ne.symm hx)]
      exact .none

theorem overwritten_arraysBuilt (y : Variable) : (overwritten y).ArraysBuilt :=
  fun _ _ h => absurd h (by simp [overwritten, Table.get?, Table.find, Table.empty])

theorem met_snapshot_built : met.snapshot.Built := by
  have hvars : ∀ e ∈ met.snapshot.vars.entries, e.2.value.type = e.2.type := by decide
  exact ⟨fun _ _ hv => hvars _ (Table.mem_entries_of_get? hv),
    fun _ _ h => absurd h (by simp [show met.snapshot.arrays = .empty from rfl])⟩

theorem overwritten_recordsBuilt (y : Variable) : (overwritten y).RecordsBuilt := by
  intro key r hr
  have hrecord : (key, r) = ((0, none), ⟨met.snapshot, 0, 0⟩) := by
    simpa [overwritten] using Table.mem_entries_of_get? hr
  cases hrecord
  exact met_snapshot_built

/-- A variable that was written after the block was entered is widened. -/
theorem Path.enter_generalises_overwritten :
    (met.after (overwriting 1)).Describes metState ∧
      ((met.after (overwriting 1)).enter 0 1).1 = .widened ∧
      ((met.after (overwriting 1)).enter 0 1).2.Describes metState := by
  have hd : (overwritten (onesIn 1)).Describes metState := overwritten_describes (by decide)
  rw [show met.after (overwriting 1) = overwritten (onesIn 1) from after_overwriting (by decide)]
  have hversions : ∀ e ∈ (overwritten (onesIn 1)).vars.visible.entries, e.2.version + 1 ≠ 0 := by
    decide
  refine ⟨hd, rfl, (Path.enter_generalises 0 1 (overwritten_arraysBuilt _)
    (overwritten_recordsBuilt _) hd fun name _ _ _ _ _ v hv => ?_).1.2.2⟩
  exact hversions _ (Table.mem_entries_of_get? ((Scopes.get?_visible _ _).trans hv))

/-- **A widening can revive a relation.**  The version after the largest is zero, and then the
relation that was recorded against the first version of `y` is current again. -/
theorem Path.enter_revives :
    (met.after (overwriting (2 ^ 64 - 1))).ArraysBuilt ∧
      (met.after (overwriting (2 ^ 64 - 1))).RecordsBuilt ∧
      (met.after (overwriting (2 ^ 64 - 1))).Describes metState ∧
      ((met.after (overwriting (2 ^ 64 - 1))).enter 0 1).1 = .widened ∧
      ¬ ((met.after (overwriting (2 ^ 64 - 1))).enter 0 1).2.Describes metState := by
  rw [after_overwriting (by decide)]
  refine ⟨overwritten_arraysBuilt _, overwritten_recordsBuilt _,
    overwritten_describes (by decide), rfl, fun h => ?_⟩
  have hvar : ((overwritten (onesIn (.ofNat (2 ^ 64 - 1)))).enter 0 1).2.var? "x" =
      some ⟨.double, .full .double, true, .unpredictable, 1, [⟨.eq, "y", 0⟩]⟩ := rfl
  obtain ⟨l, hl, hd⟩ := h.of_var? hvar
  obtain ⟨w, m, hw, hm, -, hcurrent⟩ := hd.relations ⟨.eq, "y", 0⟩ (List.mem_cons_self ..)
  cases hl
  cases hm
  have hversion : w.version = 0 := by
    cases hw
    rfl
  have hfold : RelOp.eq.fold (.number .zero) (.number .one) = .ok false := rfl
  exact absurd (hfold.symm.trans (hcurrent hversion.symm)) (by simp)

end Symbolic
end FlowVerifier
