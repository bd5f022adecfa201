import FlowVerifier.Proofs.Symbolic.Scopes
import Mathlib

/-!
# Parts of the variables

What a search decides by is only a part of what a path knows about its variables.

* `Variable.bare` and `Scopes.bare` forget how variables moved.
* `Scopes.without` leaves some variables out.

Every operation on scopes can be carried out on these parts, and what is known about two
variables can be read off them (`relation_eq`, `relation_without`).
-/

namespace FlowVerifier

/-! ## Tables -/

namespace Table

variable {κ α β : Type} [DecidableEq κ]

theorem map_insert (f : α → β) (t : Table κ α) (key : κ) (value : α) :
    (t.insert key value).map (fun _ => f) = (t.map fun _ => f).insert key (f value) := by
  obtain ⟨l⟩ := t
  show Table.mk _ = Table.mk _
  congr 1
  show (put key value l).map _ = put key (f value) (l.map _)
  induction l with
  | nil => rfl
  | cons e l ih =>
      obtain ⟨k, v⟩ := e
      by_cases hk : k = key
      · simp [put, hk]
      · simp [put, hk, ih]

theorem map_orElse (f : α → β) (t u : Table κ α) :
    (t.orElse u).map (fun _ => f) = (t.map fun _ => f).orElse (u.map fun _ => f) := by
  have hcontains : ∀ k, (t.map fun _ => f).contains k = t.contains k := by
    intro k
    simp [contains, get?_map]
  simp only [orElse, map, List.map_append, List.filter_map]
  congr 3
  refine List.filter_congr fun e _ => ?_
  exact congrArg (!·) (hcontains e.1).symm

/-- The table without some of its keys. -/
def without (keys : List κ) (t : Table κ α) : Table κ α :=
  ⟨t.entries.filter fun e => !decide (e.1 ∈ keys)⟩

theorem get?_without (keys : List κ) (t : Table κ α) (key : κ) :
    (t.without keys).get? key = if key ∈ keys then none else t.get? key := by
  show find key (t.entries.filter fun e => !decide (e.1 ∈ keys)) = _
  rw [find_filter key fun k => !decide (k ∈ keys)]
  by_cases h : key ∈ keys
  · simp [h]
  · simp [h, get?]

@[simp]
theorem without_nil (t : Table κ α) : t.without [] = t := by simp [without]

/-- A key that is left out anyway may be bound. -/
theorem without_insert_of_mem {keys : List κ} {key : κ} (h : key ∈ keys) (t : Table κ α)
    (value : α) : (t.insert key value).without keys = t.without keys := by
  obtain ⟨l⟩ := t
  show Table.mk _ = Table.mk _
  congr 1
  show (put key value l).filter _ = l.filter _
  induction l with
  | nil => simp [put, h]
  | cons e l ih =>
      obtain ⟨k, v⟩ := e
      by_cases hk : k = key
      · simp [put, hk, h]
      · simp [put, hk, ih, List.filter_cons]

theorem without_insert {keys : List κ} {key : κ} (h : key ∉ keys) (t : Table κ α) (value : α) :
    (t.insert key value).without keys = (t.without keys).insert key value := by
  obtain ⟨l⟩ := t
  show Table.mk _ = Table.mk _
  congr 1
  show (put key value l).filter _ = put key value (l.filter _)
  induction l with
  | nil => simp [put, h]
  | cons e l ih =>
      obtain ⟨k, v⟩ := e
      by_cases hk : k = key
      · simp [put, hk, h]
      · by_cases hm : k ∈ keys <;> simp [put, hk, ih, hm]

theorem without_orElse (keys : List κ) (t u : Table κ α) :
    (t.orElse u).without keys = (t.without keys).orElse (u.without keys) := by
  simp only [orElse, without, List.filter_append, List.filter_filter]
  congr 2
  refine List.filter_congr fun e _ => ?_
  by_cases hm : e.1 ∈ keys
  · simp [hm]
  · have hget := get?_without keys t e.1
    rw [if_neg hm] at hget
    have hcontains : (t.without keys).contains e.1 = t.contains e.1 := by
      simp only [contains, hget]
    simp only [hm, decide_false, Bool.not_false, Bool.true_and, Bool.and_true]
    exact congrArg (!·) hcontains.symm

theorem without_map (keys : List κ) (f : κ → α → β) (t : Table κ α) :
    (t.map f).without keys = (t.without keys).map f := by
  simp only [without, map, List.filter_map]
  rfl

theorem keys_without (keys : List κ) (t : Table κ α) :
    (t.without keys).keys = t.keys.filter fun k => !decide (k ∈ keys) := by
  simp only [Table.keys, without, List.filter_map]
  rfl

omit [DecidableEq κ] in
theorem keys_map (f : κ → α → β) (t : Table κ α) : (t.map f).keys = t.keys := by
  simp [keys, map]

omit [DecidableEq κ] in
/-- One change of all values after another. -/
theorem map_map {γ : Type} (f : κ → α → β) (g : κ → β → γ) (t : Table κ α) :
    (t.map f).map g = t.map fun k v => g k (f k v) := by
  simp [map]

omit [DecidableEq κ] in
/-- Tables that agree in what `e` keeps agree in all that depends on it alone. -/
theorem map_eq_map {γ : Type} {e : α → β} {f f' : κ → α → γ} {t u : Table κ α}
    (h : (t.map fun _ => e) = u.map fun _ => e)
    (hf : ∀ k v w, e v = e w → f k v = f' k w) : t.map f = u.map f' := by
  obtain ⟨l⟩ := t
  obtain ⟨l'⟩ := u
  simp only [map, Table.mk.injEq] at h ⊢
  induction l generalizing l' with
  | nil =>
      obtain rfl := List.map_eq_nil_iff.1 h.symm
      rfl
  | cons a l ih =>
      obtain ⟨b, l', rfl, hab, hl⟩ := List.map_eq_cons_iff.1 h.symm
      obtain ⟨hk, hv⟩ := Prod.mk.inj hab
      simp only [List.map_cons, ih l' hl.symm, hk, hf a.1 a.2 b.2 hv.symm]

end Table

namespace Symbolic

/-! ## Variables -/

/-- A variable without the record of how it moved. -/
def Variable.bare (v : Variable) : Variable := { v with trend := .untouched }

namespace Variable

variable {v w : Variable}

/-- Two variables that agree in all but their trends. -/
theorem bare_eq_iff : v.bare = w.bare ↔
    v.type = w.type ∧ v.value = w.value ∧ v.defined = w.defined ∧ v.version = w.version ∧
      v.relations = w.relations := by
  obtain ⟨⟩ := v
  obtain ⟨⟩ := w
  simp [bare]

theorem bare_write (h : v.bare = w.bare) (value : Value) (change change' : Trend) :
    (v.write value change).bare = (w.write value change').bare := by
  rw [bare_eq_iff] at h ⊢
  simp [write, h]

theorem bare_relate (h : v.bare = w.bare) (op : RelOp) (other : String) (version : Version) :
    (v.relate op other version).bare = (w.relate op other version).bare := by
  rw [bare_eq_iff] at h ⊢
  simp [relate, h]

/-- None of the relations of the variable is to one of `names`. -/
def Avoids (names : List String) (v : Variable) : Prop := ∀ r ∈ v.relations, r.other ∉ names

theorem Avoids.of_nil {names : List String} (h : v.relations = []) : v.Avoids names := by
  intro r hr
  rw [h] at hr
  exact absurd hr List.not_mem_nil

theorem Avoids.relate {names : List String} (h : v.Avoids names) (op : RelOp) {other : String}
    (ho : other ∉ names) (version : Version) : (v.relate op other version).Avoids names := by
  intro r hr
  rcases List.mem_append.1 hr with hr | hr
  · exact h r (List.mem_of_mem_filter hr)
  · obtain rfl := List.mem_singleton.1 hr
    exact ho

end Variable

/-! ## Scopes -/

namespace Scopes

variable {s t : Scopes} {name : String}

/-- The variables without the record of how they moved. -/
def bare (s : Scopes) : Scopes :=
  ⟨s.inner.map fun _ => Variable.bare, s.outer.map fun u => u.map fun _ => Variable.bare⟩

@[simp]
theorem get?_bare (s : Scopes) (name : String) : s.bare.get? name = (s.get? name).map .bare := by
  unfold get? bare
  rw [← List.map_cons (f := fun u : Table String Variable => u.map fun _ => Variable.bare)]
  induction s.inner :: s.outer with
  | nil => rfl
  | cons u l ih =>
      simp only [List.map_cons, List.findSome?_cons, Table.get?_map]
      cases u.get? name with
      | none => simpa using ih
      | some v => rfl

@[simp]
theorem visible_bare (s : Scopes) : s.bare.visible = s.visible.map fun _ => Variable.bare := by
  obtain ⟨inner, outer⟩ := s
  unfold visible bare
  dsimp only
  induction outer generalizing inner with
  | nil => rfl
  | cons u l ih =>
      simp only [List.map_cons, List.foldl_cons]
      rw [← Table.map_orElse]
      exact ih _

theorem bare_bind (s : Scopes) (name : String) (v : Variable) :
    (s.bind name v).bare = s.bare.bind name v.bare := by
  simp [bind, bare, Table.map_insert]

theorem bare_flatten (s : Scopes) : s.flatten.bare = s.bare.flatten := by
  simp only [flatten, visible_bare]
  rfl

theorem bare_fork (s : Scopes) : s.fork.bare = s.bare.fork := by
  unfold fork
  have hdepth : Scopes.depth ⟨.empty, s.bare.inner :: s.bare.outer⟩ =
      Scopes.depth ⟨.empty, s.inner :: s.outer⟩ := by
    simp [depth, bare]
  dsimp only
  rw [hdepth]
  split
  · rw [bare_flatten]
    rfl
  · rfl

/-- A name is bound on both sides or on neither, to variables that agree in all but
their trends. -/
theorem get?_cases (h : s.bare = t.bare) (name : String) :
    (s.get? name = none ∧ t.get? name = none) ∨
      ∃ v w, s.get? name = some v ∧ t.get? name = some w ∧ v.bare = w.bare := by
  have hname : (s.get? name).map Variable.bare = (t.get? name).map Variable.bare := by
    rw [← get?_bare, ← get?_bare, h]
  cases hs : s.get? name <;> cases ht : t.get? name <;> simp_all

theorem bare_modify (h : s.bare = t.bare) (name : String) {f f' : Variable → Variable}
    (hf : ∀ v w, v.bare = w.bare → (f v).bare = (f' w).bare) :
    (s.modify name f).bare = (t.modify name f').bare := by
  unfold modify
  rcases get?_cases h name with ⟨hs, ht⟩ | ⟨v, w, hs, ht, hvw⟩
  · simp only [hs, ht, h]
  · simp only [hs, ht, bare_bind, h, hf v w hvw]

theorem bare_insert (h : s.bare = t.bare) (name : String) {v w : Variable}
    (hvw : v.bare = w.bare) : (s.insert name v).bare = (t.insert name w).bare := by
  unfold insert
  rcases get?_cases h name with ⟨hs, ht⟩ | ⟨old, old', hs, ht, hold⟩
  · simp only [hs, ht, bare_bind, h, hvw]
  · simp only [hs, ht, bare_bind, h]
    congr 1
    rw [Variable.bare_eq_iff] at hold hvw ⊢
    simp [hold, hvw]

theorem bare_mapAll (h : s.bare = t.bare) {f f' : String → Variable → Variable}
    (hf : ∀ name v w, v.bare = w.bare → (f name v).bare = (f' name w).bare) :
    (s.mapAll f).bare = (t.mapAll f').bare := by
  have hvisible : (s.visible.map fun _ => Variable.bare) =
      t.visible.map fun _ => Variable.bare := by
    rw [← visible_bare, ← visible_bare, h]
  have houter : s.bare.outer = t.bare.outer := by rw [h]
  have hinner : ((s.visible.map f).map fun _ => Variable.bare) =
      (t.visible.map f').map fun _ => Variable.bare := by
    rw [Table.map_map, Table.map_map]
    exact Table.map_eq_map hvisible hf
  simp only [mapAll, bare, hinner]
  exact congrArg _ houter

theorem bare_relate (h : s.bare = t.bare) (lhs : String) (op : RelOp) (rhs : String) :
    (s.relate lhs op rhs).bare = (t.relate lhs op rhs).bare := by
  unfold relate
  split
  · exact h
  · rcases get?_cases h lhs with ⟨hs, ht⟩ | ⟨l, l', hs, ht, hl⟩
    · simp only [hs, ht, h]
    · rcases get?_cases h rhs with ⟨hs', ht'⟩ | ⟨r, r', hs', ht', hr⟩
      · simp only [hs, ht, hs', ht', h]
      · simp only [hs, ht, hs', ht']
        rw [Variable.bare_eq_iff] at hl hr
        rw [hl.2.2.2.1, hr.2.2.2.1]
        exact bare_modify (bare_modify h lhs fun v w hvw => Variable.bare_relate hvw _ _ _) rhs
          fun v w hvw => Variable.bare_relate hvw _ _ _

/-! ### Relations -/

theorem currentRelations_bare (s : Scopes) (name : String) :
    s.bare.currentRelations name = s.currentRelations name := by
  unfold currentRelations
  rw [get?_bare]
  cases s.get? name with
  | none => rfl
  | some v =>
      show v.relations.filter _ = v.relations.filter _
      refine List.filter_congr fun r _ => ?_
      rw [get?_bare]
      cases s.get? r.other <;> rfl

theorem follow_bare (s : Scopes) (goal : String) (unmet queue : List (String × RelOp))
    (known : Option RelOp) :
    s.bare.follow goal unmet queue known = s.follow goal unmet queue known := by
  fun_induction s.follow goal unmet queue known with
  | case1 => rw [follow]
  | case2 unmet known op queue hmem ih => rw [follow, dif_pos hmem, if_pos rfl, ih]
  | case3 unmet known name op queue hmem hne ih =>
      rw [follow, dif_pos hmem, if_neg hne, ← ih]
      simp only [stepsFrom, currentRelations_bare]
  | case4 unmet known name op queue hmem ih => rw [follow, dif_neg hmem, ih]

/-- What is known about two variables does not depend on how they moved. -/
theorem relation_eq (h : s.bare = t.bare) (lhs rhs : String) :
    s.relation lhs rhs = t.relation lhs rhs := by
  have hbare : ∀ u : Scopes, u.bare.relation lhs rhs = u.relation lhs rhs := by
    intro u
    simp only [relation, follow_bare, stepsFrom, currentRelations_bare, allPairs, visible_bare,
      Table.keys_map]
  rw [← hbare s, h, hbare t]

/-! ### Leaving variables out -/

/-- The variables without some of them. -/
def without (s : Scopes) (names : List String) : Scopes :=
  ⟨s.inner.without names, s.outer.map (Table.without names)⟩

@[simp]
theorem without_nil (s : Scopes) : s.without [] = s := by
  obtain ⟨inner, outer⟩ := s
  have hid : Table.without (κ := String) (α := Variable) [] = id := funext Table.without_nil
  simp [without, hid]

variable {names : List String}

theorem get?_without (s : Scopes) (names : List String) (name : String) :
    (s.without names).get? name = if name ∈ names then none else s.get? name := by
  unfold get? without
  dsimp only
  rw [← List.map_cons]
  induction s.inner :: s.outer with
  | nil => simp
  | cons u l ih =>
      simp only [List.map_cons, List.findSome?_cons, Table.get?_without]
      by_cases h : name ∈ names
      · simpa [h] using ih
      · simp only [h, if_false] at ih ⊢
        rw [ih]

theorem visible_without (s : Scopes) (names : List String) :
    (s.without names).visible = s.visible.without names := by
  obtain ⟨inner, outer⟩ := s
  unfold visible without
  dsimp only
  induction outer generalizing inner with
  | nil => rfl
  | cons u l ih =>
      simp only [List.map_cons, List.foldl_cons]
      rw [← Table.without_orElse]
      exact ih _

theorem without_bind_of_mem (h : name ∈ names) (s : Scopes) (v : Variable) :
    (s.bind name v).without names = s.without names := by
  simp only [without, bind, Table.without_insert_of_mem h]

theorem without_bind (h : name ∉ names) (s : Scopes) (v : Variable) :
    (s.bind name v).without names = (s.without names).bind name v := by
  simp only [without, bind, Table.without_insert h]

theorem without_fork (s : Scopes) (names : List String) :
    s.fork.without names = (s.without names).fork := by
  have hdepth : Scopes.depth ⟨.empty, (s.without names).inner :: (s.without names).outer⟩ =
      Scopes.depth ⟨.empty, s.inner :: s.outer⟩ := by
    simp [depth, without]
  have hchild : (⟨.empty, s.inner :: s.outer⟩ : Scopes).without names =
      ⟨.empty, (s.without names).inner :: (s.without names).outer⟩ := rfl
  unfold fork
  dsimp only
  rw [hdepth]
  split
  · rw [← hchild, flatten, flatten, visible_without]
    rfl
  · rfl

theorem without_modify (h : name ∉ names) (s : Scopes) (f : Variable → Variable) :
    (s.modify name f).without names = (s.without names).modify name f := by
  unfold modify
  rw [get?_without, if_neg h]
  cases s.get? name with
  | none => rfl
  | some v => exact without_bind h s _

/-- A variable that is left out may be changed. -/
theorem without_modify_of_mem (h : name ∈ names) (s : Scopes) (f : Variable → Variable) :
    (s.modify name f).without names = s.without names := by
  unfold modify
  cases s.get? name with
  | none => rfl
  | some v => exact without_bind_of_mem h s _

theorem without_insert (h : name ∉ names) (s : Scopes) (v : Variable) :
    (s.insert name v).without names = (s.without names).insert name v := by
  unfold insert
  rw [get?_without, if_neg h]
  cases s.get? name with
  | none => exact without_bind h s v
  | some old => exact without_bind h s _

/-- A variable that is left out may be bound. -/
theorem without_insert_of_mem (h : name ∈ names) (s : Scopes) (v : Variable) :
    (s.insert name v).without names = s.without names := by
  unfold insert
  cases s.get? name with
  | none => exact without_bind_of_mem h s v
  | some old => exact without_bind_of_mem h s _

theorem without_mapAll (s : Scopes) (names : List String) (f : String → Variable → Variable) :
    (s.mapAll f).without names = (s.without names).mapAll f := by
  simp only [mapAll, visible_without, ← Table.without_map]
  rfl

/-- What happens to variables that are left out makes no difference. -/
theorem mapAll_without_congr {s : Scopes} {f f' : String → Variable → Variable}
    (h : ∀ name v, name ∉ names → f name v = f' name v) :
    (s.without names).mapAll f = (s.without names).mapAll f' := by
  have hvisible : (s.visible.without names).map f = (s.visible.without names).map f' := by
    refine congrArg Table.mk (List.map_congr_left fun e he => ?_)
    obtain ⟨-, hname⟩ := List.mem_filter.1 he
    exact congrArg (Prod.mk e.1) (h e.1 e.2 (by simpa using hname))
  simp only [mapAll, visible_without, hvisible]

theorem without_relate {lhs rhs : String} (hl : lhs ∉ names) (hr : rhs ∉ names) (s : Scopes)
    (op : RelOp) : (s.relate lhs op rhs).without names = (s.without names).relate lhs op rhs := by
  unfold relate
  split
  · rfl
  · rw [get?_without, get?_without, if_neg hl, if_neg hr]
    split
    · rw [without_modify hr, without_modify hl]
    · rfl

/-- No variable that is kept is known to be related to one that is left out. -/
def Clear (s : Scopes) (names : List String) : Prop :=
  ∀ x v, x ∉ names → s.get? x = some v → v.Avoids names

theorem Clear.modify (h : s.Clear names) (name : String) {f : Variable → Variable}
    (hf : ∀ v, v.Avoids names → (f v).Avoids names) : (s.modify name f).Clear names := by
  intro x v hx hv
  rw [get?_modify] at hv
  split at hv
  · rename_i heq
    subst heq
    obtain ⟨u, hu, rfl⟩ := Option.map_eq_some_iff.1 hv
    exact hf u (h name u hx hu)
  · exact h x v hx hv

/-- Variables that are left out may be known to be related to anything. -/
theorem Clear.insert (h : s.Clear names) {v : Variable}
    (hv : name ∉ names → v.Avoids names) : (s.insert name v).Clear names := by
  intro x w hx hw
  rw [get?_insert] at hw
  split at hw
  · rename_i heq
    subst heq
    have hrel : w.relations = v.relations := by
      obtain rfl := Option.some.inj hw
      cases s.get? name <;> rfl
    intro r hr
    exact hv hx r (hrel ▸ hr)
  · exact h x w hx hw

theorem Clear.relate (h : s.Clear names) {lhs rhs : String} (hl : lhs ∉ names) (hr : rhs ∉ names)
    (op : RelOp) : (s.relate lhs op rhs).Clear names := by
  unfold Scopes.relate
  split
  · exact h
  · split
    · exact (h.modify lhs fun v hv => hv.relate op hr _).modify rhs fun v hv => hv.relate _ hl _
    · exact h

theorem Clear.mapAll (h : s.Clear names) {f : String → Variable → Variable}
    (hf : ∀ x v, v.Avoids names → (f x v).Avoids names) : (s.mapAll f).Clear names := by
  intro x v hx hv
  rw [get?_mapAll] at hv
  obtain ⟨u, hu, rfl⟩ := Option.map_eq_some_iff.1 hv
  exact hf x u (h x u hx hu)

/-- The variables that are left out are of the given types. -/
def Typed (s : Scopes) (names : List String) (type : String → ValueType) : Prop :=
  ∀ x v, x ∈ names → s.get? x = some v → v.type = type x

theorem Typed.modify {type : String → ValueType} (h : s.Typed names type) (name : String)
    {f : Variable → Variable} (hf : ∀ v, (f v).type = v.type) :
    (s.modify name f).Typed names type := by
  intro x v hx hv
  rw [get?_modify] at hv
  split at hv
  · obtain ⟨u, hu, rfl⟩ := Option.map_eq_some_iff.1 hv
    rw [hf]
    exact h x u hx hu
  · exact h x v hx hv

theorem Typed.insert {type : String → ValueType} (h : s.Typed names type) {v : Variable}
    (hv : name ∈ names → v.type = type name) : (s.insert name v).Typed names type := by
  intro x w hx hw
  rw [get?_insert] at hw
  split at hw
  · rename_i heq
    subst heq
    have htype : w.type = v.type := by
      obtain rfl := Option.some.inj hw
      cases s.get? name <;> rfl
    rw [htype, hv hx]
  · exact h x w hx hw

theorem Typed.relate {type : String → ValueType} (h : s.Typed names type) (lhs : String)
    (op : RelOp) (rhs : String) : (s.relate lhs op rhs).Typed names type := by
  unfold Scopes.relate
  split
  · exact h
  · split
    · exact (h.modify lhs (by intro v; rfl)).modify rhs (by intro v; rfl)
    · exact h

theorem Typed.mapAll {type : String → ValueType} (h : s.Typed names type)
    {f : String → Variable → Variable} (hf : ∀ x v, (f x v).type = v.type) :
    (s.mapAll f).Typed names type := by
  intro x v hx hv
  rw [get?_mapAll] at hv
  obtain ⟨u, hu, rfl⟩ := Option.map_eq_some_iff.1 hv
  rw [hf]
  exact h x u hx hu

theorem currentRelations_without (h : s.Clear names) (hn : name ∉ names) :
    (s.without names).currentRelations name = s.currentRelations name := by
  unfold currentRelations
  rw [get?_without, if_neg hn]
  cases hv : s.get? name with
  | none => rfl
  | some v =>
      refine List.filter_congr fun r hr => ?_
      rw [get?_without, if_neg (h name v hn hv r hr)]

theorem not_mem_of_stepsFrom (h : s.Clear names) (hn : name ∉ names) {via : RelOp}
    {step : String × RelOp} (hs : step ∈ s.stepsFrom name via) : step.1 ∉ names := by
  obtain ⟨r, hr, hstep⟩ := List.mem_filterMap.1 hs
  obtain ⟨op, -, rfl⟩ := Option.map_eq_some_iff.1 hstep
  unfold currentRelations at hr
  split at hr
  · rename_i v hv
    exact h name v hn hv r (List.mem_of_mem_filter hr)
  · exact absurd hr List.not_mem_nil

/-- The way from one variable to another does not lead past those left out. -/
theorem follow_without (h : s.Clear names) (goal : String) (unmet queue : List (String × RelOp))
    (known : Option RelOp) (hq : ∀ x ∈ queue, x.1 ∉ names) :
    (s.without names).follow goal (unmet.filter fun x => !decide (x.1 ∈ names)) queue known =
      s.follow goal unmet queue known := by
  have herase : ∀ (unmet : List (String × RelOp)) {x : String × RelOp}, x.1 ∉ names →
      (unmet.filter fun x => !decide (x.1 ∈ names)).erase x =
        (unmet.erase x).filter fun x => !decide (x.1 ∈ names) := by
    intro unmet x hx
    induction unmet with
    | nil => rfl
    | cons a l ih =>
        by_cases ha : a = x
        · subst ha
          simp [hx]
        · by_cases hm : a.1 ∈ names <;> simp [hm, ha, ih]
  fun_induction s.follow goal unmet queue known with
  | case1 => rw [follow]
  | case2 unmet known op queue hmem ih =>
      have hn : goal ∉ names := hq _ List.mem_cons_self
      rw [follow, dif_pos (by simp [hmem, hn]), if_pos rfl, herase _ hn,
        ih fun x hx => hq x (List.mem_cons_of_mem _ hx)]
  | case3 unmet known name op queue hmem hne ih =>
      have hn : name ∉ names := hq _ List.mem_cons_self
      have hsteps : (s.without names).stepsFrom name op = s.stepsFrom name op := by
        simp only [stepsFrom, currentRelations_without h hn]
      rw [follow, dif_pos (by simp [hmem, hn]), if_neg hne, herase _ hn, hsteps]
      refine ih fun x hx => ?_
      rcases List.mem_append.1 hx with hx | hx
      · exact hq x (List.mem_cons_of_mem _ hx)
      · exact not_mem_of_stepsFrom h hn hx
  | case4 unmet known name op queue hmem ih =>
      rw [follow, dif_neg (by simp [hmem]), ih fun x hx => hq x (List.mem_cons_of_mem _ hx)]

theorem relation_without (h : s.Clear names) {lhs : String} (hl : lhs ∉ names) (rhs : String) :
    (s.without names).relation lhs rhs = s.relation lhs rhs := by
  have hpairs : (s.without names).allPairs =
      s.allPairs.filter fun x => !decide (x.1 ∈ names) := by
    unfold allPairs
    rw [visible_without, Table.keys_without]
    induction s.visible.keys with
    | nil => rfl
    | cons name l ih => by_cases hn : name ∈ names <;> simp_all
  have hsteps : (s.without names).stepsFrom lhs .eq = s.stepsFrom lhs .eq := by
    simp only [stepsFrom, currentRelations_without h hl]
  unfold relation
  rw [hpairs, hsteps, follow_without h _ _ _ _ fun x hx => not_mem_of_stepsFrom h hl hx]

end Scopes

end Symbolic
end FlowVerifier
