import FlowVerifier.Symbolic.Scopes

/-!
# Scopes as maps

Everything that is asked of a chain of scopes goes through `Scopes.get?`.  This
file says what each operation does to this view: forking and collapsing do not
show, binding shows at its name only, and a change of all variables shows at
every name.
-/

namespace FlowVerifier

namespace Table

variable {κ α β : Type} [DecidableEq κ]

theorem find_append (key : κ) (l k : List (κ × α)) :
    find key (l ++ k) = (find key l).or (find key k) := by
  induction l with
  | nil => rfl
  | cons e l ih =>
      obtain ⟨x, v⟩ := e
      by_cases hx : x = key <;> simp [find, hx, ih]

theorem find_filter (key : κ) (p : κ → Bool) (l : List (κ × α)) :
    find key (l.filter fun e => p e.1) = if p key then find key l else none := by
  induction l with
  | nil => simp [find]
  | cons e l ih =>
      obtain ⟨x, v⟩ := e
      by_cases hx : x = key
      · subst hx
        cases hp : p x <;> simp [find, hp, ih]
      · cases hp : p x <;> simp [find, hp, hx, ih]

/-- The values of `u` show where `t` has none. -/
theorem get?_orElse (t u : Table κ α) (key : κ) :
    (t.orElse u).get? key = (t.get? key).or (u.get? key) := by
  show find key (t.entries ++ u.entries.filter fun e => !t.contains e.1) = _
  rw [find_append, find_filter key fun k => !t.contains k]
  show (t.get? key).or _ = _
  cases ht : t.get? key with
  | none =>
      simp only [contains, ht]
      rfl
  | some v => rfl

theorem get?_map (f : κ → α → β) (t : Table κ α) (key : κ) :
    (t.map f).get? key = (t.get? key).map (f key) := by
  unfold map get?
  induction t.entries with
  | nil => rfl
  | cons e l ih =>
      obtain ⟨x, v⟩ := e
      by_cases hx : x = key
      · subst hx
        simp [find]
      · simp [find, hx, ih]

theorem mem_entries_of_get? {t : Table κ α} {key : κ} {v : α} (h : t.get? key = some v) :
    (key, v) ∈ t.entries := by
  unfold get? at h
  induction ht : t.entries generalizing t with
  | nil => simp [ht, find] at h
  | cons e l ih =>
      obtain ⟨x, w⟩ := e
      rw [ht, find] at h
      by_cases hx : x = key
      · rw [if_pos hx, Option.some.injEq] at h
        rw [hx, h]
        exact List.mem_cons_self ..
      · rw [if_neg hx] at h
        exact List.mem_cons_of_mem _ (ih (t := ⟨l⟩) h rfl)

/-- A key that is listed has a value. -/
theorem get?_isSome_of_mem {t : Table κ α} {e : κ × α} (h : e ∈ t.entries) :
    (t.get? e.1).isSome = true := by
  unfold get?
  induction ht : t.entries generalizing t with
  | nil => simp [ht] at h
  | cons x l ih =>
      obtain ⟨k, v⟩ := x
      by_cases hk : k = e.1
      · simp [find, hk]
      · rw [ht] at h
        rcases List.mem_cons.1 h with rfl | h
        · exact absurd rfl hk
        · simpa [find, hk] using ih (t := ⟨l⟩) h rfl

end Table

namespace Symbolic
namespace Scopes

variable {s : Scopes} {name other : String} {v : Variable}

theorem get?_foldl_orElse (tables : List (Table String Variable)) (t : Table String Variable)
    (name : String) :
    (tables.foldl Table.orElse t).get? name = (t :: tables).findSome? (·.get? name) := by
  induction tables generalizing t with
  | nil => cases ht : t.get? name <;> simp [ht]
  | cons u tables ih =>
      rw [List.foldl_cons, ih, List.findSome?_cons, Table.get?_orElse, List.findSome?_cons]
      cases t.get? name with
      | none => simp [List.findSome?_cons]
      | some v => rfl

/-- The table of visible variables is the view. -/
@[simp]
theorem get?_visible (s : Scopes) (name : String) : s.visible.get? name = s.get? name :=
  get?_foldl_orElse s.outer s.inner name

@[simp]
theorem get?_flatten (s : Scopes) (name : String) : s.flatten.get? name = s.get? name := by
  rw [← get?_visible s name]
  show [s.visible].findSome? (·.get? name) = _
  cases h : s.visible.get? name <;> simp [h]

/-- A fork does not show. -/
@[simp]
theorem get?_fork (s : Scopes) (name : String) : s.fork.get? name = s.get? name := by
  unfold fork
  dsimp only
  split
  · rw [get?_flatten]
    rfl
  · rfl

theorem get?_bind (s : Scopes) (name other : String) (v : Variable) :
    (s.bind name v).get? other = if name = other then some v else s.get? other := by
  simp only [bind, get?, List.findSome?_cons, Table.get?_insert]
  by_cases h : name = other <;> simp [h]

/-- A change of one variable shows at its name. -/
theorem get?_modify (s : Scopes) (name other : String) (f : Variable → Variable) :
    (s.modify name f).get? other =
      if name = other then (s.get? other).map f else s.get? other := by
  unfold modify
  cases h : s.get? name with
  | none =>
      by_cases hn : name = other
      · subst hn
        simp [h]
      · simp [hn]
  | some v =>
      simp only [get?_bind]
      by_cases hn : name = other
      · subst hn
        simp [h]
      · simp [hn]

/-- What an insertion binds: a name that was bound before gets a newer version. -/
theorem get?_insert (s : Scopes) (name other : String) (v : Variable) :
    (s.insert name v).get? other =
      if name = other then
        some ((s.get? name).elim v fun old =>
          { v with version := max v.version (old.version + 1) })
      else s.get? other := by
  unfold insert
  cases h : s.get? name <;> simp [get?_bind]

theorem get?_mapAll (s : Scopes) (f : String → Variable → Variable) (name : String) :
    (s.mapAll f).get? name = (s.get? name).map (f name) := by
  have hview : (s.mapAll f).get? name =
      ((s.visible.map f).get? name).or (s.outer.findSome? (·.get? name)) := by
    simp only [mapAll, get?, List.findSome?_cons]
    cases (s.visible.map f).get? name <;> rfl
  rw [hview, Table.get?_map, get?_visible]
  cases h : s.get? name with
  | some v => rfl
  | none =>
      -- a name that is not visible is in no outer scope either
      rw [get?, List.findSome?_cons] at h
      cases hin : s.inner.get? name with
      | none => rw [hin] at h; exact h
      | some v => rw [hin] at h; exact absurd h (by simp)

/-! ## Following relations -/

/-- What holds of the pairs that a search for relations begins with, and goes along with every
step, holds of what the search finds. -/
theorem follow_all (s : Scopes) {P : String × RelOp → Prop} {goal : String}
    (hstep : ∀ name via, P (name, via) → ∀ e ∈ s.stepsFrom name via, P e) :
    ∀ (unmet queue : List (String × RelOp)) (known : Option RelOp),
      (∀ e ∈ queue, P e) → (∀ op, known = some op → P (goal, op)) →
      ∀ op, s.follow goal unmet queue known = some op → P (goal, op) := by
  intro unmet queue known
  fun_induction s.follow goal unmet queue known with
  | case1 => exact fun _ hknown => hknown
  | case2 unmet known op queue hmem ih =>
      intro hqueue hknown
      have hop := hqueue _ List.mem_cons_self
      refine ih (fun e he => hqueue e (List.mem_cons_of_mem _ he)) fun op' hop' => ?_
      unfold strengthen at hop'
      split at hop'
      · split at hop'
        · exact hknown op' hop'
        · cases hop'
          exact hop
      · cases hop'
        exact hop
  | case3 unmet known name op queue hmem hne ih =>
      intro hqueue hknown
      refine ih (fun e he => ?_) hknown
      rcases List.mem_append.1 he with he | he
      · exact hqueue e (List.mem_cons_of_mem _ he)
      · exact hstep name op (hqueue _ List.mem_cons_self) e he
  | case4 unmet known name op queue hmem ih =>
      intro hqueue hknown
      exact ih (fun e he => hqueue e (List.mem_cons_of_mem _ he)) hknown

end Scopes
end Symbolic
end FlowVerifier
