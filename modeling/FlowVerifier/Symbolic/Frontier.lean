/-!
# Frontiers

A search that branches keeps the ways it has not followed yet on a stack and
counts the ways it has started.  Where a way splits, one side goes on in its
place and the others are new ways, of which only so many may be started.

`advance` is this rule.  The search ends because every split that starts a new
way uses up some of what may be started, and every other step replaces a way by
one that has less left to do; `advance_lt` is the statement behind it.
-/

namespace FlowVerifier
namespace Symbolic

/-- The ways a search has not followed to their end. -/
structure Frontier (α : Type) where
  /-- The ways to follow, the next one first. -/
  pending : List α
  /-- The number of ways started. -/
  started : Nat
  deriving Inhabited

namespace Frontier

variable {α : Type}

/-- How many new ways may be started under a cap. -/
def room (f : Frontier α) (cap : Nat) : Nat := cap - f.started

/-- Does a split have more new sides than may be started? -/
def overflows (f : Frontier α) (cap : Nat) (sides : List α) : Bool :=
  f.room cap < sides.length - 1

/-- Follows a way that splits into the given sides.  The last side goes on in
place of the way; of the others, which are new, as many are started as may be. -/
def advance (f : Frontier α) (cap : Nat) (sides : List α) : Frontier α :=
  let new := sides.dropLast.take (f.room cap)
  { pending := sides.getLast?.toList ++ new.reverse ++ f.pending
    started := f.started + new.length }

/-- Gives up all ways but the next one. -/
def narrowed (f : Frontier α) : Frontier α := { f with pending := f.pending.take 1 }

/-! ## Progress -/

/-- What is left to do on some ways, given what is left on each. -/
def work (weight : α → Nat) : List α → Nat
  | [] => 0
  | way :: ways => weight way + 1 + work weight ways

theorem work_append (weight : α → Nat) (ws vs : List α) :
    work weight (ws ++ vs) = work weight ws + work weight vs := by
  induction ws with
  | nil => simp [work]
  | cons w ws ih => simp only [List.cons_append, work, ih, Nat.add_assoc]

theorem work_take_le (weight : α → Nat) (n : Nat) (ws : List α) :
    work weight (ws.take n) ≤ work weight ws := by
  have h : work weight ws = work weight (ws.take n) + work weight (ws.drop n) := by
    rw [← work_append, List.take_append_drop]
  omega

/-- The quantity that every step of a search makes smaller: what may still be
started, and then what is left to do. -/
def progress (weight : α → Nat) (cap : Nat) (f : Frontier α) : Nat × Nat :=
  (f.room cap, work weight f.pending)

/-- Less is left to do after following a way to sides on which less is left. -/
theorem advance_lt {weight : α → Nat} {cap : Nat} {f : Frontier α} {way : α} {sides : List α}
    (h : ∀ side ∈ sides, weight side < weight way) :
    Prod.Lex (· < ·) (· < ·) ((f.advance cap sides).progress weight cap)
      (f.room cap, work weight (way :: f.pending)) := by
  by_cases hn : (sides.dropLast.take (f.room cap)).length = 0
  · have hnil := List.length_eq_zero_iff.1 hn
    have hroom : (f.advance cap sides).room cap = f.room cap := by
      simp [advance, room] at hn ⊢
      omega
    have hwork : work weight (f.advance cap sides).pending < work weight (way :: f.pending) := by
      simp only [advance, hnil, List.reverse_nil, List.append_nil, work_append]
      rw [show way :: f.pending = [way] ++ f.pending from rfl, work_append]
      cases hl : sides.getLast? with
      | none => simp [work]
      | some side =>
        have := h side (List.mem_of_getLast? hl)
        simp [work]
        omega
    simp only [progress, hroom]
    exact Prod.Lex.right _ hwork
  · refine Prod.Lex.left _ _ ?_
    simp only [advance, room, List.length_take] at hn ⊢
    omega

/-- Giving ways up leaves no more to do. -/
theorem narrowed_le {weight : α → Nat} {cap : Nat} {f : Frontier α} {bound : Nat × Nat}
    (h : Prod.Lex (· < ·) (· < ·) (f.progress weight cap) bound) :
    Prod.Lex (· < ·) (· < ·) (f.narrowed.progress weight cap) bound := by
  obtain ⟨b, c⟩ := bound
  have hw : work weight f.narrowed.pending ≤ work weight f.pending := work_take_le weight 1 _
  rcases Prod.lex_def.1 h with hlt | ⟨heq, hlt⟩
  · exact Prod.Lex.left _ _ hlt
  · exact Prod.lex_def.2 (Or.inr ⟨heq, Nat.lt_of_le_of_lt hw hlt⟩)

end Frontier

end Symbolic
end FlowVerifier
