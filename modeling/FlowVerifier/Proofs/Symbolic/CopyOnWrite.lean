import FlowVerifier.Proofs.Symbolic.Views
import Mathlib

/-!
# Sets of variables that share scopes

When a path forks, both sides go on from one chain of scopes, and each writes into a scope
of its own.  This file shows that the sharing cannot be observed: however many sets descend
from an empty one, and in whatever order they are changed, each behaves like a plain table
of its own that was copied as a whole at every fork.

* `SetOp` are the operations on one of several sets, `SetOp.onScopes` and `SetOp.onTable`
  what they do to a chain of scopes and to a plain table.
* `Represents` is the invariant: the same variables, every name once in every scope, and a
  chain that is not too long.  Each operation keeps it (`Represents.apply`).
* `run_observed`: after every sequence of operations, all that can be asked of a set has the
  same answer as for the table, and no operation shows in another set.
-/

namespace FlowVerifier

/-! ## Tables with distinct keys -/

namespace Table

variable {κ α β : Type} [DecidableEq κ] {t u : Table κ α} {key : κ} {value : α}

/-- Every key is listed once. -/
def Distinct (t : Table κ α) : Prop := t.keys.Nodup

theorem mem_keys : key ∈ t.keys ↔ (t.get? key).isSome = true := by
  constructor
  · intro h
    obtain ⟨e, he, rfl⟩ := List.mem_map.1 h
    exact get?_isSome_of_mem he
  · intro h
    obtain ⟨v, hv⟩ := Option.isSome_iff_exists.1 h
    exact List.mem_map.2 ⟨_, mem_entries_of_get? hv, rfl⟩

theorem keys_put (key : κ) (value : α) (l : List (κ × α)) :
    (put key value l).map (·.1) =
      if key ∈ l.map (·.1) then l.map (·.1) else l.map (·.1) ++ [key] := by
  induction l with
  | nil => simp [put]
  | cons e l ih =>
      obtain ⟨k, v⟩ := e
      by_cases hk : k = key
      · simp [put, hk]
      · by_cases hm : key ∈ l.map (·.1) <;> simp_all [put, Ne.symm hk]

theorem Distinct.insert (h : t.Distinct) (key : κ) (value : α) : (t.insert key value).Distinct := by
  show ((put key value t.entries).map (·.1)).Nodup
  rw [keys_put]
  split
  · exact h
  · rename_i hnot
    refine List.nodup_append.2 ⟨h, List.nodup_singleton key, ?_⟩
    rintro k hk k' hk' rfl
    exact hnot (List.mem_singleton.1 hk' ▸ hk)

theorem Distinct.orElse (h : t.Distinct) (hu : u.Distinct) : (t.orElse u).Distinct := by
  show ((t.entries ++ u.entries.filter fun e => !t.contains e.1).map (·.1)).Nodup
  rw [List.map_append, List.nodup_append]
  refine ⟨h, (List.filter_sublist.map _).nodup hu, ?_⟩
  rintro k hk k' hk' rfl
  obtain ⟨e, he, rfl⟩ := List.mem_map.1 hk'
  have hcontains : t.contains e.1 = true := mem_keys.1 hk
  rw [List.mem_filter, hcontains] at he
  exact absurd he.2 (by decide)

omit [DecidableEq κ] in
theorem Distinct.map (h : t.Distinct) (f : κ → α → β) : (t.map f).Distinct := by
  rw [Distinct, keys_map]
  exact h

/-- With distinct keys, what is listed is what is found. -/
theorem Distinct.mem_entries (h : t.Distinct) : (key, value) ∈ t.entries ↔
    t.get? key = some value := by
  refine ⟨fun hmem => ?_, mem_entries_of_get?⟩
  obtain ⟨l⟩ := t
  show find key l = _
  induction l with
  | nil => exact absurd hmem List.not_mem_nil
  | cons e l ih =>
      obtain ⟨k, v⟩ := e
      obtain ⟨hk, hl⟩ := List.nodup_cons.1 h
      rcases List.mem_cons.1 hmem with heq | hmem
      · obtain ⟨rfl, rfl⟩ := Prod.mk.inj heq
        simp [find]
      · have hne : k ≠ key := by
          rintro rfl
          exact hk (List.mem_map.2 ⟨_, hmem, rfl⟩)
        simpa [find, hne] using ih hl hmem

omit [DecidableEq κ] in
theorem Distinct.nodup_entries (h : t.Distinct) : t.entries.Nodup := List.Nodup.of_map _ h

/-- Tables with distinct keys and the same values list the same entries. -/
theorem Distinct.perm_entries (ht : t.Distinct) (hu : u.Distinct)
    (h : ∀ key, t.get? key = u.get? key) : t.entries.Perm u.entries := by
  refine (List.perm_ext_iff_of_nodup ht.nodup_entries hu.nodup_entries).2 fun e => ?_
  obtain ⟨k, v⟩ := e
  rw [ht.mem_entries, hu.mem_entries, h]

end Table

namespace Symbolic

/-! ## Operations -/

/-- An operation on one of several sets of variables. -/
inductive SetOp where
  /-- A name is bound. -/
  | insert (name : String) (v : Variable)
  /-- The variable of a name is changed in place, by a write for example. -/
  | change (name : String) (f : Variable → Variable)
  /-- A relation is recorded on both sides. -/
  | relate (lhs : String) (op : RelOp) (rhs : String)
  /-- All visible variables are changed in place. -/
  | changeAll (f : String → Variable → Variable)
  /-- The chain is collapsed. -/
  | flatten
  /-- The set is copied. -/
  | clone
  /-- The set is forked. -/
  | fork

namespace SetOp

/-- What becomes of the set that the operation is applied to. -/
def onScopes : SetOp → Scopes → Scopes
  | insert name v, s => s.insert name v
  | change name f, s => s.modify name f
  | relate lhs op rhs, s => s.relate lhs op rhs
  | changeAll f, s => s.mapAll f
  | flatten, s => s.flatten
  | clone, s => s
  | fork, s => s.fork

end SetOp

/-! ### Plain tables -/

namespace PlainVars

/-- Binds a name.  A name that was bound before gets a version past the old one. -/
def insert (t : Table String Variable) (name : String) (v : Variable) : Table String Variable :=
  t.insert name <| (t.get? name).elim v fun old =>
    { v with version := max v.version (old.version + 1) }

/-- Changes the variable of a name, if there is one. -/
def change (t : Table String Variable) (name : String) (f : Variable → Variable) :
    Table String Variable :=
  (t.get? name).elim t fun v => t.insert name (f v)

/-- Records a relation on both variables, if they are there and distinct. -/
def relate (t : Table String Variable) (lhs : String) (op : RelOp) (rhs : String) :
    Table String Variable :=
  if lhs = rhs then t
  else
    match t.get? lhs, t.get? rhs with
    | some l, some r =>
      change (change t lhs (·.relate op rhs r.version)) rhs (·.relate op.flip lhs l.version)
    | _, _ => t

/-- The names, sorted. -/
def names (t : Table String Variable) : List String :=
  t.keys.mergeSort fun a b => !decide (b < a)

end PlainVars

namespace SetOp

/-- What becomes of a plain table.  Collapsing, copying and forking leave it as it is. -/
def onTable : SetOp → Table String Variable → Table String Variable
  | insert name v, t => PlainVars.insert t name v
  | change name f, t => PlainVars.change t name f
  | relate lhs op rhs, t => PlainVars.relate t lhs op rhs
  | changeAll f, t => t.map f
  | flatten, t => t
  | clone, t => t
  | fork, t => t

/-- Does the operation give a second set, which goes on from the same contents? -/
def splits : SetOp → Bool
  | clone => true
  | fork => true
  | _ => false

/-- Applies an operation to the set of an index; a new set comes last. -/
def applyAt {σ : Type} (act : SetOp → σ → σ) (sets : List σ) (i : Nat) (op : SetOp) : List σ :=
  sets[i]?.elim sets fun s => sets.set i (act op s) ++ if op.splits then [act op s] else []

/-- The sets after a sequence of operations, starting with one set. -/
def run {σ : Type} (act : SetOp → σ → σ) (first : σ) (ops : List (Nat × SetOp)) : List σ :=
  ops.foldl (fun sets e => applyAt act sets e.1 e.2) [first]

end SetOp

/-! ## The invariant -/

/-- A chain of scopes stands for a plain table. -/
structure Represents (s : Scopes) (t : Table String Variable) : Prop where
  /-- The innermost binding of a name is the one in the table. -/
  same : ∀ name, s.get? name = t.get? name
  /-- No scope binds a name twice. -/
  inner : s.inner.Distinct
  outer : ∀ scope ∈ s.outer, scope.Distinct
  /-- Nor does the table. -/
  table : t.Distinct
  /-- The chain is not too long. -/
  depth : s.depth ≤ Scopes.maxDepth

namespace Represents

variable {s : Scopes} {t : Table String Variable}

theorem empty : Represents .empty .empty where
  same _ := rfl
  inner := List.nodup_nil
  outer _ h := absurd h List.not_mem_nil
  table := List.nodup_nil
  depth := Nat.zero_le _

theorem visible (h : Represents s t) : s.visible.Distinct := by
  have key : ∀ (outer : List (Table String Variable)) (inner : Table String Variable),
      inner.Distinct → (∀ scope ∈ outer, scope.Distinct) →
      (outer.foldl Table.orElse inner).Distinct := by
    intro outer
    induction outer with
    | nil => exact fun _ hinner _ => hinner
    | cons scope outer ih =>
        intro inner hinner houter
        obtain ⟨hscope, houter⟩ := List.forall_mem_cons.1 houter
        exact ih _ (hinner.orElse hscope) houter
  exact key s.outer s.inner h.inner h.outer

theorem bind (h : Represents s t) (name : String) (v : Variable) :
    Represents (s.bind name v) (t.insert name v) where
  same other := by rw [Scopes.get?_bind, Table.get?_insert, h.same]
  inner := h.inner.insert name v
  outer := h.outer
  table := h.table.insert name v
  depth := h.depth

theorem insert (h : Represents s t) (name : String) (v : Variable) :
    Represents (s.insert name v) (PlainVars.insert t name v) := by
  unfold Scopes.insert PlainVars.insert
  rw [← h.same]
  cases s.get? name <;> exact h.bind name _

theorem change (h : Represents s t) (name : String) (f : Variable → Variable) :
    Represents (s.modify name f) (PlainVars.change t name f) := by
  unfold Scopes.modify PlainVars.change
  rw [← h.same]
  cases s.get? name with
  | none => exact h
  | some v => exact h.bind name (f v)

theorem relate (h : Represents s t) (lhs : String) (op : RelOp) (rhs : String) :
    Represents (s.relate lhs op rhs) (PlainVars.relate t lhs op rhs) := by
  unfold Scopes.relate PlainVars.relate
  split
  · exact h
  · rw [← h.same, ← h.same]
    cases s.get? lhs with
    | none => exact h
    | some l =>
        cases s.get? rhs with
        | none => exact h
        | some r => exact (h.change lhs _).change rhs _

theorem changeAll (h : Represents s t) (f : String → Variable → Variable) :
    Represents (s.mapAll f) (t.map f) where
  same name := by rw [Scopes.get?_mapAll, Table.get?_map, h.same]
  inner := h.visible.map f
  outer := h.outer
  table := h.table.map f
  depth := h.depth

theorem flatten (h : Represents s t) : Represents s.flatten t where
  same name := by rw [Scopes.get?_flatten, h.same]
  inner := h.visible
  outer _ hscope := absurd hscope List.not_mem_nil
  table := h.table
  depth := Nat.zero_le _

/-- A fork adds a scope, and collapses the chain if it becomes too long. -/
theorem fork (h : Represents s t) : Represents s.fork t := by
  have houter : ∀ scope ∈ s.inner :: s.outer, scope.Distinct :=
    List.forall_mem_cons.2 ⟨h.inner, h.outer⟩
  by_cases hdeep : Scopes.maxDepth < (s.inner :: s.outer).length
  · have hfork : s.fork = (⟨.empty, s.inner :: s.outer⟩ : Scopes).flatten := if_pos hdeep
    refine ⟨fun name => by rw [Scopes.get?_fork, h.same], ?_, ?_, h.table, ?_⟩
    · rw [hfork]
      show (s.outer.foldl Table.orElse (Table.empty.orElse s.inner)).Distinct
      have hempty : (Table.empty.orElse s.inner : Table String Variable) = s.inner := by
        simp [Table.orElse, Table.empty, Table.contains, Table.get?, Table.find]
      rw [hempty]
      exact h.visible
    · rw [hfork]
      exact fun _ hscope => absurd hscope List.not_mem_nil
    · rw [hfork]
      exact Nat.zero_le _
  · have hfork : s.fork = ⟨.empty, s.inner :: s.outer⟩ := if_neg hdeep
    refine ⟨fun name => by rw [Scopes.get?_fork, h.same], ?_, ?_, h.table, ?_⟩
    · rw [hfork]
      exact List.nodup_nil
    · rw [hfork]
      exact houter
    · rw [hfork]
      exact Nat.le_of_not_lt hdeep

/-- **One operation** keeps the invariant. -/
theorem apply (h : Represents s t) (op : SetOp) : Represents (op.onScopes s) (op.onTable t) := by
  cases op with
  | insert name v => exact h.insert name v
  | change name f => exact h.change name f
  | relate lhs op rhs => exact h.relate lhs op rhs
  | changeAll f => exact h.changeAll f
  | flatten => exact h.flatten
  | clone => exact h
  | fork => exact h.fork

end Represents

/-! ## Many sets -/

/-- Lists that are related stay related when related elements are put in. -/
theorem forall₂_set {α β : Type} {R : α → β → Prop} {l : List α} {k : List β}
    (h : List.Forall₂ R l k) {i : Nat} {a : α} {b : β} (hab : R a b) :
    List.Forall₂ R (l.set i a) (k.set i b) := by
  induction h generalizing i with
  | nil => exact .nil
  | cons hx hl ih =>
      cases i with
      | zero => exact .cons hab hl
      | succ i => exact .cons hx ih

namespace SetOp

theorem forall₂_applyAt {sets : List Scopes} {tables : List (Table String Variable)}
    (h : List.Forall₂ Represents sets tables) (i : Nat) (op : SetOp) :
    List.Forall₂ Represents (applyAt onScopes sets i op) (applyAt onTable tables i op) := by
  unfold applyAt
  cases hs : sets[i]? with
  | none =>
      have ht : tables[i]? = none := by
        rw [List.getElem?_eq_none_iff, ← h.length_eq]
        exact List.getElem?_eq_none_iff.1 hs
      rw [ht]
      exact h
  | some s =>
      obtain ⟨hi, rfl⟩ := List.getElem?_eq_some_iff.1 hs
      have hi' : i < tables.length := h.length_eq ▸ hi
      rw [List.getElem?_eq_getElem hi']
      have happly := ((List.forall₂_iff_get.1 h).2 i hi hi').apply op
      refine List.rel_append (forall₂_set h happly) ?_
      split
      · exact .cons happly .nil
      · exact .nil

/-- **All operations**: every set stands for the table of the same index. -/
theorem forall₂_run (ops : List (Nat × SetOp)) :
    List.Forall₂ Represents (run onScopes .empty ops) (run onTable .empty ops) := by
  have key : ∀ (ops : List (Nat × SetOp)) (sets : List Scopes)
      (tables : List (Table String Variable)), List.Forall₂ Represents sets tables →
      List.Forall₂ Represents (ops.foldl (fun sets e => applyAt onScopes sets e.1 e.2) sets)
        (ops.foldl (fun sets e => applyAt onTable sets e.1 e.2) tables) := by
    intro ops
    induction ops with
    | nil => exact fun _ _ h => h
    | cons e ops ih => exact fun _ _ h => ih _ _ (forall₂_applyAt h e.1 e.2)
  exact key ops _ _ (.cons .empty .nil)

/-- An operation leaves all other sets as they are. -/
theorem getElem?_applyAt {σ : Type} (act : SetOp → σ → σ) {sets : List σ} {i j : Nat} {s : σ}
    (op : SetOp) (hij : j ≠ i) (hj : sets[j]? = some s) :
    (applyAt act sets i op)[j]? = some s := by
  unfold applyAt
  cases sets[i]? with
  | none => exact hj
  | some x =>
      have hlt : j < (sets.set i (act op x)).length := by
        rw [List.length_set]
        exact (List.getElem?_eq_some_iff.1 hj).1
      rw [Option.elim_some, List.getElem?_append_left hlt, List.getElem?_set_ne (Ne.symm hij), hj]

end SetOp

/-! ## Observations -/

/-- All that can be asked of a set of variables has the same answer as for a plain table. -/
structure ObservedAs (s : Scopes) (t : Table String Variable) : Prop where
  /-- What a name is bound to. -/
  get? : ∀ name, s.get? name = t.get? name
  /-- Whether a name is bound. -/
  contains : ∀ name, s.contains name = t.contains name
  /-- The sorted list of names. -/
  names : s.names = PlainVars.names t
  /-- All bindings, in some order. -/
  entries : s.visible.entries.Perm t.entries
  /-- Each name is listed once, with its innermost binding. -/
  once : s.visible.keys.Nodup ∧ ∀ name v, (name, v) ∈ s.visible.entries ↔
    (s.inner :: s.outer).findSome? (·.get? name) = some v

/-- Permuted lists of names are sorted alike. -/
theorem mergeSort_names {l k : List String} (h : l.Perm k) :
    l.mergeSort (fun a b => !decide (b < a)) = k.mergeSort fun a b => !decide (b < a) := by
  have htrans : ∀ a b c : String, (!decide (b < a)) = true → (!decide (c < b)) = true →
      (!decide (c < a)) = true := by
    intro a b c hab hbc
    simp only [Bool.not_eq_true', decide_eq_false_iff_not] at hab hbc ⊢
    exact not_lt.2 ((not_lt.1 hab).trans (not_lt.1 hbc))
  have htotal : ∀ a b : String, (!decide (b < a) || !decide (a < b)) = true := by
    intro a b
    simp only [Bool.or_eq_true, Bool.not_eq_true', decide_eq_false_iff_not]
    exact (le_total a b).imp not_lt.2 not_lt.2
  have hperm : (l.mergeSort fun a b => !decide (b < a)).Perm
      (k.mergeSort fun a b => !decide (b < a)) :=
    (List.mergeSort_perm l _).trans (h.trans (List.mergeSort_perm k _).symm)
  refine hperm.eq_of_pairwise ?_ (List.pairwise_mergeSort htrans htotal l)
    (List.pairwise_mergeSort htrans htotal k)
  intro a b _ _ hab hba
  simp only [Bool.not_eq_true', decide_eq_false_iff_not] at hab hba
  exact le_antisymm (not_lt.1 hab) (not_lt.1 hba)

theorem Represents.observedAs {s : Scopes} {t : Table String Variable} (h : Represents s t) :
    ObservedAs s t := by
  have hperm : s.visible.entries.Perm t.entries :=
    h.visible.perm_entries h.table fun name => by rw [Scopes.get?_visible, h.same]
  refine ⟨h.same, fun name => ?_, mergeSort_names (hperm.map _), hperm, h.visible,
    fun name v => ?_⟩
  · rw [Scopes.contains, Table.contains, h.same]
  · rw [h.visible.mem_entries, Scopes.get?_visible]
    rfl

open SetOp in
/-- **Sharing cannot be observed.**  After every sequence of operations on any number of sets
that descend from an empty one, there are as many sets as there are plain tables after the
same operations, and all that can be asked of a set has the same answer as for its table.  No
chain is longer than `maxDepth`.  An operation on one set changes no other set. -/
theorem run_observed (ops : List (Nat × SetOp)) :
    (run onScopes .empty ops).length = (run onTable .empty ops).length ∧
    (∀ (i : Nat) s t, (run onScopes .empty ops)[i]? = some s →
      (run onTable .empty ops)[i]? = some t →
      ObservedAs s t ∧ s.depth ≤ Scopes.maxDepth) ∧
    ∀ (i j : Nat) s op, j ≠ i → (run onScopes .empty ops)[j]? = some s →
      (run onScopes .empty (ops ++ [(i, op)]))[j]? = some s := by
  have hall := forall₂_run ops
  refine ⟨hall.length_eq, fun i s t hs ht => ?_, fun i j s op hij hj => ?_⟩
  · obtain ⟨hi, rfl⟩ := List.getElem?_eq_some_iff.1 hs
    obtain ⟨hi', rfl⟩ := List.getElem?_eq_some_iff.1 ht
    have hrep := (List.forall₂_iff_get.1 hall).2 i hi hi'
    exact ⟨hrep.observedAs, hrep.depth⟩
  · rw [run, List.foldl_append]
    exact getElem?_applyAt onScopes op hij hj

end Symbolic
end FlowVerifier
