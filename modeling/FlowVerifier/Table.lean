/-!
# Tables

A table assigns values to finitely many keys.  It is a list of entries in the
order in which the keys were first given; giving a key again replaces its value
in place.  `get?` is the view of a table through which everything else is
stated: `get?_insert` says what an insertion does to it.
-/

namespace FlowVerifier

/-- A finite map, as a list of entries with distinct keys. -/
structure Table (κ α : Type) where
  /-- The entries, oldest key first. -/
  entries : List (κ × α) := []
  deriving Inhabited

namespace Table

variable {κ α β : Type} [DecidableEq κ]

/-- The table without entries. -/
def empty : Table κ α := ⟨[]⟩

/-- The first value of a key in a list of entries. -/
def find (key : κ) : List (κ × α) → Option α
  | [] => none
  | (k, v) :: rest => if k = key then some v else find key rest

/-- Replaces the first entry of a key, or appends one. -/
def put (key : κ) (value : α) : List (κ × α) → List (κ × α)
  | [] => [(key, value)]
  | (k, v) :: rest => if k = key then (key, value) :: rest else (k, v) :: put key value rest

/-- The value of a key. -/
def get? (t : Table κ α) (key : κ) : Option α := find key t.entries

/-- Has the key a value? -/
def contains (t : Table κ α) (key : κ) : Bool := (t.get? key).isSome

/-- Gives a value to a key. -/
def insert (t : Table κ α) (key : κ) (value : α) : Table κ α := ⟨put key value t.entries⟩

/-- Takes a key out. -/
def erase (t : Table κ α) (key : κ) : Table κ α := ⟨t.entries.filter fun e => !decide (e.1 = key)⟩

/-- The keys, oldest first. -/
def keys (t : Table κ α) : List κ := t.entries.map (·.1)

/-- The values, in the order of the keys. -/
def values (t : Table κ α) : List α := t.entries.map (·.2)

/-- Is there no entry? -/
def isEmpty (t : Table κ α) : Bool := t.entries.isEmpty

/-- Changes every value, given its key. -/
def map (f : κ → α → β) (t : Table κ α) : Table κ β := ⟨t.entries.map fun (k, v) => (k, f k v)⟩

/-- Adds the entries of `u` whose keys `t` lacks. -/
def orElse (t u : Table κ α) : Table κ α :=
  ⟨t.entries ++ u.entries.filter fun (k, _) => !t.contains k⟩

/-! ## Laws -/

@[simp]
theorem get?_empty (key : κ) : (empty : Table κ α).get? key = none := rfl

/-- Insertion is seen at its key and nowhere else. -/
theorem get?_insert (t : Table κ α) (key other : κ) (value : α) :
    (t.insert key value).get? other = if key = other then some value else t.get? other := by
  unfold insert get?
  induction t.entries with
  | nil => simp [put, find]
  | cons e rest ih =>
    obtain ⟨k, v⟩ := e
    by_cases hk : k = key
    · subst hk
      by_cases ho : k = other <;> simp [put, find, ho]
    · by_cases ho : k = other
      · subst ho
        simp [put, find, hk, Ne.symm hk]
      · simp [put, find, hk, ho, ih]

/-- Taking a key out is seen at this key and nowhere else. -/
theorem get?_erase (t : Table κ α) (key other : κ) :
    (t.erase key).get? other = if key = other then none else t.get? other := by
  unfold erase get?
  induction t.entries with
  | nil => simp [find]
  | cons e rest ih =>
    obtain ⟨k, v⟩ := e
    by_cases hk : k = key
    · subst hk
      by_cases ho : k = other <;> simp_all [find]
    · by_cases ho : k = other
      · subst ho
        simp [find, hk, Ne.symm hk]
      · simp [find, hk, ho, ih]

end Table

end FlowVerifier
