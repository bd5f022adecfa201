import Mathlib.Data.List.Forall2
import FlowVerifier.Proofs.Symbolic.Arrays
import FlowVerifier.Proofs.Symbolic.Scopes
import FlowVerifier.Symbolic.Path

/-!
# States that a path describes

A path describes a state of a running program if everything the state holds is what
the path allows for.

* Both have the same variables, of the same types, and every value is a member.
* Both have the same arrays, as `ArrayValue.Describes` says.
* The stacks are of one height, with the same markers and with members for values.
* A relation that was recorded for a variable, or for a value on the stack, was not
  recorded against a version still to come, and it holds if that version is current.

A relation speaks about the other variable, so a write can break the relations of
variables it does not touch.  `Advances` says what a change of the variables has to
keep for all relations at once: a variable stays as it is or gets a newer version.
`Describes.bind` and `Describes.modifyVar` are the two ways in which variables change.
-/

namespace FlowVerifier

open Run

namespace Symbolic

variable {vars vars' : Scopes} {held held' : String → Option Literal} {l m : Literal}

/-- Optional values that are related are related in every weaker way. -/
theorem rel_imp {α β : Type} {R S : α → β → Prop} {a : Option α} {b : Option β}
    (h : Option.Rel R a b) (himp : ∀ x y, R x y → S x y) : Option.Rel S a b := by
  cases h with
  | some hr => exact .some (himp _ _ hr)
  | none => exact .none

/-! ## Versions -/

/-- The version after one that is not the largest is a later one. -/
theorem lt_next {version : Version} (h : version + 1 ≠ 0) : version < version + 1 := by
  have hne : (version + 1).toNat ≠ 0 := fun h0 => h (UInt64.toNat_inj.1 h0)
  have hlt := version.toNat_lt
  rw [UInt64.lt_iff_toNat_lt]
  rw [UInt64.toNat_add, UInt64.toNat_one] at hne ⊢
  omega

/-- A variable that is bound anew gets a later version than the old one. -/
theorem lt_max_next {version : Version} (h : version + 1 ≠ 0) (own : Version) :
    version < max own (version + 1) := by
  show version < if own ≤ version + 1 then version + 1 else own
  split
  · exact lt_next h
  · rename_i hle
    exact UInt64.lt_trans (lt_next h) (UInt64.not_le.1 hle)

/-! ## Relations -/

/-- A relation of the value `l` says nothing wrong about what the variables hold. -/
def Relation.Sound (vars : Scopes) (held : String → Option Literal) (l : Literal)
    (r : Relation) : Prop :=
  ∃ w m, vars.get? r.other = some w ∧ held r.other = some m ∧ r.version ≤ w.version ∧
    (r.version = w.version → r.op.fold l m = .ok true)

/-- Every variable stays as it is, or gets a newer version. -/
def Advances (vars : Scopes) (held : String → Option Literal) (vars' : Scopes)
    (held' : String → Option Literal) : Prop :=
  ∀ name w m, vars.get? name = some w → held name = some m →
    ∃ w' m', vars'.get? name = some w' ∧ held' name = some m' ∧
      (w'.version = w.version ∧ m' = m ∨ w.version < w'.version)

/-- **Relations go stale or stay right** when variables advance. -/
theorem Relation.Sound.advance {r : Relation} (h : r.Sound vars held l)
    (ha : Advances vars held vars' held') : r.Sound vars' held' l := by
  obtain ⟨w, m, hw, hm, hle, hcurrent⟩ := h
  obtain ⟨w', m', hw', hm', hstep⟩ := ha _ _ _ hw hm
  refine ⟨w', m', hw', hm', ?_⟩
  rcases hstep with ⟨hv, rfl⟩ | hlt
  · rw [hv]
    exact ⟨hle, hcurrent⟩
  · have hnew : r.version < w'.version := UInt64.lt_of_le_of_lt hle hlt
    exact ⟨UInt64.le_of_lt hnew, fun heq => absurd (heq ▸ hnew) (UInt64.lt_irrefl _)⟩

/-! ## Variables, slots and states -/

/-- What is known of a variable, or of a value on the stack, is right for the value
`l`. -/
structure Variable.Describes (vars : Scopes) (held : String → Option Literal) (v : Variable)
    (l : Literal) : Prop where
  type : v.type = l.type
  value : v.value.contains l = true
  relations : ∀ r ∈ v.relations, r.Sound vars held l

theorem Variable.Describes.advance {v : Variable} (h : v.Describes vars held l)
    (ha : Advances vars held vars' held') : v.Describes vars' held' l :=
  ⟨h.type, h.value, fun r hr => (h.relations r hr).advance ha⟩

/-- Markers are equal, and what is known of a value is right. -/
def StackEntry.Describes (vars : Scopes) (held : String → Option Literal) :
    StackEntry → Entry → Prop
  | .value _ v, .value _ l => v.Describes vars held l
  | .marker b, .marker c => b = c
  | _, _ => False

theorem StackEntry.Describes.advance {e : StackEntry} {f : Entry}
    (ha : Advances vars held vars' held') (h : e.Describes vars held f) :
    e.Describes vars' held' f := by
  cases e <;> cases f
  · exact Variable.Describes.advance h ha
  · exact h
  · exact h
  · exact h

namespace Path

variable {p q : Path} {s : State} {name : String} {v : Variable}

/-- The state is one that the path allows for. -/
structure Describes (p : Path) (s : State) : Prop where
  scalars : ∀ name, Option.Rel (Variable.Describes p.vars s.vars) (p.var? name) (s.vars name)
  arrays : ∀ name, Option.Rel ArrayValue.Describes (p.arrays.get? name) (s.arrays name)
  stack : List.Forall₂ (StackEntry.Describes p.vars s.vars) p.stack.entries s.stack

theorem Describes.of_var? (h : p.Describes s) (hv : p.var? name = some v) :
    ∃ l, s.vars name = some l ∧ v.Describes p.vars s.vars l := by
  have hrel := h.scalars name
  rw [hv] at hrel
  cases hl : s.vars name with
  | none => rw [hl] at hrel; cases hrel
  | some l => rw [hl] at hrel; cases hrel with | some hd => exact ⟨l, rfl, hd⟩

theorem Describes.of_held (h : p.Describes s) (hl : s.vars name = some l) :
    ∃ v, p.var? name = some v ∧ v.Describes p.vars s.vars l := by
  have hrel := h.scalars name
  rw [hl] at hrel
  cases hv : p.var? name with
  | none => rw [hv] at hrel; cases hrel
  | some v => rw [hv] at hrel; cases hrel with | some hd => exact ⟨v, rfl, hd⟩

theorem Describes.var?_eq_none (h : p.Describes s) (hl : s.vars name = none) :
    p.var? name = none := by
  have hrel := h.scalars name
  rw [hl] at hrel
  cases hv : p.var? name with
  | none => rfl
  | some v => rw [hv] at hrel; cases hrel

theorem Describes.of_array (h : p.Describes s) {c : Cells} (hc : s.arrays name = some c) :
    ∃ a, p.arrays.get? name = some a ∧ a.Describes c := by
  have hrel := h.arrays name
  rw [hc] at hrel
  cases ha : p.arrays.get? name with
  | none => rw [ha] at hrel; cases hrel
  | some a => rw [ha] at hrel; cases hrel with | some hd => exact ⟨a, rfl, hd⟩

/-! ## Changes of the variables -/

/-- **A variable with a newer version.**  All that was known of others stays right,
and relations to the old value go stale. -/
theorem Describes.bind (h : p.Describes s) (hv : v.Describes p.vars s.vars l)
    (hvars : ∀ other, q.vars.get? other = if name = other then some v else p.vars.get? other)
    (hversion : ∀ w, p.vars.get? name = some w → w.version < v.version)
    (harrays : q.arrays = p.arrays) (hstack : q.stack = p.stack) :
    q.Describes (s.bind name (some l)) := by
  have ha : Advances p.vars s.vars q.vars (s.bind name (some l)).vars := by
    intro other w m hw hm
    by_cases ho : name = other
    · subst ho
      exact ⟨v, l, by rw [hvars, if_pos rfl], if_pos rfl, .inr (hversion w hw)⟩
    · exact ⟨w, m, by rw [hvars, if_neg ho, hw], (if_neg (Ne.symm ho)).trans hm, .inl ⟨rfl, rfl⟩⟩
  refine ⟨fun other => ?_, ?_, ?_⟩
  · show Option.Rel _ (q.vars.get? other) (if other = name then some l else s.vars other)
    rw [hvars]
    by_cases ho : name = other
    · rw [if_pos ho, if_pos ho.symm]
      exact .some (hv.advance ha)
    · rw [if_neg ho, if_neg (Ne.symm ho)]
      exact rel_imp (h.scalars other) fun _ _ hd => hd.advance ha
  · rw [harrays]
    exact h.arrays
  · rw [hstack]
    exact h.stack.imp fun _ _ => StackEntry.Describes.advance ha

/-- The next version of a variable is a later one. -/
def CanAdvance (p : Path) (name : String) : Prop :=
  ∀ v, p.var? name = some v → v.version + 1 ≠ 0

theorem CanAdvance.lt (h : p.CanAdvance name) (hv : p.var? name = some v) :
    v.version < v.version + 1 := lt_next (h v hv)

/-- A variable that is bound, or bound anew, by what is right for its new value. -/
theorem Describes.insertVar (h : p.Describes s) (hn : p.CanAdvance name)
    (hv : v.Describes p.vars s.vars l) :
    (p.insertVar name v).Describes (s.bind name (some l)) := by
  have hnew : ((p.vars.get? name).elim v fun old =>
      { v with version := max v.version (old.version + 1) }).Describes p.vars s.vars l := by
    cases p.vars.get? name with
    | none => exact hv
    | some old => exact ⟨hv.type, hv.value, hv.relations⟩
  refine h.bind hnew (fun other => Scopes.get?_insert ..) (fun w hw => ?_) rfl rfl
  rw [hw]
  exact lt_max_next (hn w hw) v.version

/-- **A variable of which something else is known.**  Its version stays. -/
theorem Describes.modifyVar (h : p.Describes s) {f : Variable → Variable}
    (hversion : ∀ v, (f v).version = v.version)
    (hf : ∀ v l, p.var? name = some v → s.vars name = some l → v.Describes p.vars s.vars l →
      (f v).Describes p.vars s.vars l) :
    (p.modifyVar name f).Describes s := by
  have hvars : ∀ other, (p.modifyVar name f).vars.get? other =
      if name = other then (p.vars.get? other).map f else p.vars.get? other :=
    fun other => Scopes.get?_modify p.vars name other f
  have ha : Advances p.vars s.vars (p.modifyVar name f).vars s.vars := by
    intro other w m hw hm
    by_cases ho : name = other
    · exact ⟨f w, m, by rw [hvars, if_pos ho, hw, Option.map_some], hm, .inl ⟨hversion w, rfl⟩⟩
    · exact ⟨w, m, by rw [hvars, if_neg ho, hw], hm, .inl ⟨rfl, rfl⟩⟩
  refine ⟨fun other => ?_, h.arrays, h.stack.imp fun _ _ => StackEntry.Describes.advance ha⟩
  show Option.Rel _ ((p.modifyVar name f).vars.get? other) (s.vars other)
  rw [hvars]
  by_cases ho : name = other
  · subst ho
    rw [if_pos rfl]
    cases hl : s.vars name with
    | none =>
        rw [show p.vars.get? name = none from h.var?_eq_none hl]
        exact .none
    | some l =>
        obtain ⟨v, hv, hd⟩ := h.of_held hl
        rw [show p.vars.get? name = some v from hv]
        exact .some ((hf v l hv hl hd).advance ha)
  · rw [if_neg ho]
    exact rel_imp (h.scalars other) fun _ _ hd => hd.advance ha

/-- A relation that holds can be recorded. -/
theorem Describes.relate (h : p.Describes s) {a b : String} {op : RelOp}
    (ha : s.vars a = some l) (hb : s.vars b = some m) (hop : op.fold l m = .ok true) :
    ({ p with vars := p.vars.relate a op b } : Path).Describes s := by
  obtain ⟨v, hv, hvd⟩ := h.of_held ha
  obtain ⟨w, hw, hwd⟩ := h.of_held hb
  unfold Scopes.relate
  split
  · exact h
  · rename_i hne
    have hflip := RelOp.fold_flip (Value.isNaN_of_contains hvd.value)
      (Value.isNaN_of_contains hwd.value) hop
    rw [show p.vars.get? a = some v from hv, show p.vars.get? b = some w from hw]
    -- first the variable on the left, then the one on the right
    have hleft : (p.modifyVar a (·.relate op b w.version)).Describes s := by
      refine h.modifyVar (fun _ => rfl) fun v' l' hv' hl' hd => ⟨hd.type, hd.value, ?_⟩
      intro r hr
      rcases List.mem_append.1 hr with hr | hr
      · exact hd.relations r (List.mem_of_mem_filter hr)
      · obtain rfl : r = ⟨op, b, w.version⟩ := by simpa using hr
        obtain rfl : l = l' := Option.some.inj (ha.symm.trans hl')
        exact ⟨w, m, hw, hb, UInt64.le_refl _, fun _ => hop⟩
    show ((p.modifyVar a (·.relate op b w.version)).modifyVar b
      (·.relate op.flip a v.version)).Describes s
    refine hleft.modifyVar (fun _ => rfl) fun w' m' hw' hm' hd => ⟨hd.type, hd.value, ?_⟩
    intro r hr
    rcases List.mem_append.1 hr with hr | hr
    · exact hd.relations r (List.mem_of_mem_filter hr)
    · obtain rfl : r = ⟨op.flip, a, v.version⟩ := by simpa using hr
      obtain rfl : m = m' := Option.some.inj (hb.symm.trans hm')
      refine ⟨v.relate op b w.version, l, ?_, ha, UInt64.le_refl _, fun _ => hflip⟩
      rw [show (p.modifyVar a (·.relate op b w.version)).vars =
        p.vars.modify a (·.relate op b w.version) from rfl, Scopes.get?_modify, if_pos rfl,
        show p.vars.get? a = some v from hv]
      rfl

end Path
end Symbolic
end FlowVerifier
