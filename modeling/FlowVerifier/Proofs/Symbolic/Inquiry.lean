import FlowVerifier.Proofs.Symbolic.CopyOnWrite
import FlowVerifier.Proofs.Symbolic.Versions
import Mathlib

/-!
# What is known about two variables

`Scopes.relation` looks for a relation between two variables by following relations that are
current from one variable to the next.  Relations may lead around in circles, and they may
contradict each other.  This file shows that the search ends all the same, and that what it
finds holds wherever the relations hold.

* `Inquiry` is such a search in progress, with the pairs of a variable and a relation that it
  has met, and `Inquiry.step` deals with one pair.  The steps are not bounded beforehand.
* `Inquiry.work_step_lt`: a pair is met once, so every step leaves less to do.
* `RelOp.Relates.compose`: what follows for the ends of a chain holds for its ends.
* `relation_answered`: the steps come to an end, soon, with the answer of `Scopes.relation`,
  and the answer holds for all values for which the relations that are current hold.
-/

namespace FlowVerifier

/-! ## Relations between values of an ordered domain -/

namespace RelOp

variable {V : Type*} [LinearOrder V] {r s op : RelOp} {a b c : V}

/-- The relation between two values of a totally ordered domain. -/
def Relates : RelOp → V → V → Prop
  | lt, a, b => a < b
  | le, a, b => a ≤ b
  | gt, a, b => b < a
  | ge, a, b => b ≤ a
  | eq, a, b => a = b
  | ne, a, b => a ≠ b

/-- A relation is read off the order of the values. -/
theorem holds_compare : op.holds (compare a b) = true ↔ op.Relates a b := by
  rcases lt_trichotomy a b with h | h | h
  · rw [compare_lt_iff_lt.2 h]
    cases op <;> simp [holds, Relates, h, h.le, h.not_gt, h.not_ge, h.ne]
  · rw [compare_eq_iff_eq.2 h]
    cases op <;> simp [holds, Relates, h]
  · rw [compare_gt_iff_gt.2 h]
    cases op <;> simp [holds, Relates, h, h.le, h.not_gt, h.not_ge, h.ne']

/-- **Chains.**  What follows for the ends of a chain holds for its ends. -/
theorem Relates.compose (h : r.Relates a b) (k : s.Relates b c) (hop : r.compose s = some op) :
    op.Relates a c := by
  unfold RelOp.compose at hop
  split at hop
  · cases hop
    exact (show a = b from h) ▸ k
  · cases hop
    exact (show b = c from k) ▸ h
  · cases hop
    exact lt_trans h k
  · cases hop
    exact lt_of_lt_of_le h k
  · cases hop
    exact lt_of_le_of_lt h k
  · cases hop
    exact le_trans h k
  · cases hop
    exact lt_trans k h
  · cases hop
    exact lt_of_le_of_lt k h
  · cases hop
    exact lt_of_lt_of_le k h
  · cases hop
    exact le_trans k h
  · exact absurd hop (by simp)

end RelOp

namespace Symbolic

open Scopes

/-! ## A search in progress -/

/-- A search for a relation in progress. -/
structure Inquiry where
  /-- The pairs of a variable and a relation to deal with, the next one first. -/
  queue : List (String × RelOp)
  /-- The pairs dealt with. -/
  met : List (String × RelOp) := []
  /-- The strongest relation found. -/
  found : Option RelOp := none

namespace Inquiry

variable {s : Scopes} {goal : String} {q : Inquiry} {e : String × RelOp}

/-- How the search for a relation begins. -/
def start (s : Scopes) (lhs rhs : String) : Inquiry :=
  if lhs = rhs then { queue := [], found := some .eq } else { queue := s.stepsFrom lhs .eq }

/-- Deals with the next pair.  A pair that was met before is dropped. -/
def step (s : Scopes) (goal : String) (q : Inquiry) : Inquiry :=
  match q.queue with
  | [] => q
  | e :: queue =>
    if q.met.contains e then { q with queue }
    else if e.1 = goal then ⟨queue, e :: q.met, strengthen q.found e.2⟩
    else ⟨queue ++ s.stepsFrom e.1 e.2, e :: q.met, q.found⟩

/-! ## The end of the search -/

/-- The relations that are current, of all variables. -/
def linkCount (s : Scopes) : Nat :=
  (s.visible.keys.map fun name => (s.currentRelations name).length).sum

/-- The pairs not met yet. -/
def unmet (s : Scopes) (met : List (String × RelOp)) : List (String × RelOp) :=
  s.allPairs.filter fun e => !met.contains e

/-- The relations that are current, of the variables of some pairs. -/
def linksOf (s : Scopes) (pairs : List (String × RelOp)) : Nat :=
  (pairs.map fun e => (s.currentRelations e.1).length).sum

/-- What is left to do: the pairs that wait, and the relations of those not met. -/
def work (s : Scopes) (q : Inquiry) : Nat := q.queue.length + linksOf s (unmet s q.met)

theorem mem_unmet : e ∈ unmet s q.met ↔ e ∈ s.allPairs ∧ e ∉ q.met := by
  simp [unmet, List.mem_filter]

theorem mem_allPairs : e ∈ s.allPairs ↔ (s.get? e.1).isSome = true := by
  obtain ⟨name, op⟩ := e
  have hop : op ∈ [RelOp.lt, .le, .gt, .ge, .eq, .ne] := by cases op <;> simp
  have hkeys : name ∈ s.visible.keys ↔ (s.get? name).isSome = true := by
    rw [Table.mem_keys, get?_visible]
  unfold allPairs
  constructor
  · intro h
    obtain ⟨key, hkey, hmem⟩ := List.mem_flatMap.1 h
    obtain ⟨op', -, heq⟩ := List.mem_map.1 hmem
    obtain ⟨rfl, rfl⟩ := Prod.mk.inj heq
    exact hkeys.1 hkey
  · intro h
    exact List.mem_flatMap.2 ⟨name, hkeys.2 h, List.mem_map.2 ⟨op, hop, rfl⟩⟩

/-- Relations that are current lead to visible variables. -/
theorem mem_allPairs_of_stepsFrom {name : String} {via : RelOp} (h : e ∈ s.stepsFrom name via) :
    e ∈ s.allPairs := by
  obtain ⟨r, hr, hstep⟩ := List.mem_filterMap.1 h
  obtain ⟨op, -, rfl⟩ := Option.map_eq_some_iff.1 hstep
  obtain ⟨v, -, -, hcurrent⟩ := mem_currentRelations.1 hr
  obtain ⟨w, hw, -⟩ := Option.map_eq_some_iff.1 hcurrent
  exact mem_allPairs.2 (by rw [hw]; rfl)

theorem length_stepsFrom_le (name : String) (via : RelOp) :
    (s.stepsFrom name via).length ≤ (s.currentRelations name).length :=
  List.length_filterMap_le _ _

/-- The pairs not met after one more was met. -/
theorem unmet_cons (e : String × RelOp) (met : List (String × RelOp)) :
    unmet s (e :: met) = (unmet s met).filter fun x => x ≠ e := by
  simp only [unmet, List.filter_filter]
  refine List.filter_congr fun x _ => ?_
  simp

theorem linksOf_cons (e : String × RelOp) (pairs : List (String × RelOp)) :
    linksOf s (e :: pairs) = (s.currentRelations e.1).length + linksOf s pairs := rfl

theorem linksOf_append (pairs others : List (String × RelOp)) :
    linksOf s (pairs ++ others) = linksOf s pairs + linksOf s others := by
  simp [linksOf]

theorem linksOf_filter_le (p : String × RelOp → Bool) (pairs : List (String × RelOp)) :
    linksOf s (pairs.filter p) ≤ linksOf s pairs :=
  (List.filter_sublist.map _).sum_le_sum fun _ _ => Nat.zero_le _

/-- Meeting a pair takes at least its own relations off what is left. -/
theorem linksOf_unmet_cons_le {met : List (String × RelOp)} (he : e ∈ unmet s met) :
    linksOf s (unmet s (e :: met)) + (s.currentRelations e.1).length ≤
      linksOf s (unmet s met) := by
  rw [unmet_cons]
  revert he
  generalize unmet s met = pairs
  induction pairs with
  | nil => exact fun he => absurd he List.not_mem_nil
  | cons x l ih =>
      intro he
      by_cases hx : x = e
      · subst hx
        have hsub := linksOf_filter_le (s := s) (fun y => y ≠ x) l
        rw [List.filter_cons_of_neg (by simp), linksOf_cons]
        omega
      · have hl := ih ((List.mem_cons.1 he).resolve_left (Ne.symm hx))
        rw [List.filter_cons_of_pos (by simpa using hx), linksOf_cons, linksOf_cons]
        omega

/-- All pairs that wait are pairs of visible variables. -/
def Waiting (s : Scopes) (q : Inquiry) : Prop := ∀ e ∈ q.queue, e ∈ s.allPairs

theorem waiting_start (lhs rhs : String) : (start s lhs rhs).Waiting s := by
  unfold start
  split
  · exact fun e he => absurd he List.not_mem_nil
  · exact fun e he => mem_allPairs_of_stepsFrom he

theorem Waiting.step (h : q.Waiting s) : (q.step s goal).Waiting s := by
  unfold Inquiry.step
  split
  · exact h
  · rename_i e queue hq
    have hrest : ∀ x ∈ queue, x ∈ s.allPairs :=
      fun x hx => h x (hq ▸ List.mem_cons_of_mem e hx)
    split
    · exact hrest
    · split
      · exact hrest
      · intro x hx
        rcases List.mem_append.1 hx with hx | hx
        · exact hrest x hx
        · exact mem_allPairs_of_stepsFrom hx

/-- **Every step leaves less to do.** -/
theorem work_step_lt (goal : String) (h : q.Waiting s) (hq : q.queue ≠ []) :
    (q.step s goal).work s < q.work s := by
  unfold Inquiry.step
  split
  · rename_i hnil
    exact absurd hnil hq
  · rename_i e queue hcons
    have hlength : q.queue.length = queue.length + 1 := by rw [hcons]; rfl
    split
    · show queue.length + linksOf s (unmet s q.met) < q.queue.length + linksOf s (unmet s q.met)
      omega
    · rename_i hnew
      have hmem : e ∈ unmet s q.met :=
        mem_unmet.2 ⟨h e (hcons ▸ List.mem_cons_self), by simpa using hnew⟩
      have hle := linksOf_unmet_cons_le hmem
      split
      · show queue.length + linksOf s (unmet s (e :: q.met)) <
          q.queue.length + linksOf s (unmet s q.met)
        omega
      · have hsteps := length_stepsFrom_le (s := s) e.1 e.2
        show (queue ++ s.stepsFrom e.1 e.2).length + linksOf s (unmet s (e :: q.met)) <
          q.queue.length + linksOf s (unmet s q.met)
        rw [List.length_append]
        omega

/-- **The search ends**, after no more steps than there is left to do. -/
theorem exists_over (goal : String) (h : q.Waiting s) :
    ∃ n ≤ q.work s, (((step s goal)^[n]) q).queue = [] := by
  induction hw : q.work s using Nat.strong_induction_on generalizing q with
  | _ w ih =>
      by_cases hq : q.queue = []
      · exact ⟨0, Nat.zero_le _, hq⟩
      · have hlt := work_step_lt goal h hq
        obtain ⟨n, hn, hover⟩ := ih _ (hw ▸ hlt) h.step rfl
        exact ⟨n + 1, by omega, hover⟩

/-- There are six relations to a variable. -/
theorem linksOf_allPairs : linksOf s s.allPairs = 6 * linkCount s := by
  unfold allPairs linkCount
  induction s.visible.keys with
  | nil => rfl
  | cons name l ih =>
      rw [List.flatMap_cons, linksOf_append, ih]
      simp only [linksOf, List.map_cons, List.map_nil, List.sum_cons, List.sum_nil]
      omega

theorem length_currentRelations_le (name : String) :
    (s.currentRelations name).length ≤ linkCount s := by
  by_cases hname : name ∈ s.visible.keys
  · exact List.single_le_sum (fun _ _ => Nat.zero_le _) _ (List.mem_map.2 ⟨name, hname, rfl⟩)
  · rw [Table.mem_keys, get?_visible] at hname
    have hnone : s.get? name = none := by simpa using hname
    simp [currentRelations, hnone]

theorem unmet_nil : unmet s [] = s.allPairs := List.filter_eq_self.2 fun _ _ => by simp

theorem work_start_le (lhs rhs : String) : (start s lhs rhs).work s ≤ 7 * linkCount s := by
  have hunmet : linksOf s (unmet s []) = 6 * linkCount s := by rw [unmet_nil, linksOf_allPairs]
  have hfirst : (start s lhs rhs).queue.length ≤ linkCount s := by
    unfold start
    split
    · exact Nat.zero_le _
    · exact (length_stepsFrom_le lhs .eq).trans (length_currentRelations_le lhs)
  have hmet : (start s lhs rhs).met = [] := by
    unfold start
    split <;> rfl
  rw [work, hmet, hunmet]
  omega

/-! ## The answer -/

/-- What a search in progress comes to. -/
def answer (s : Scopes) (goal : String) (q : Inquiry) : Option RelOp :=
  s.follow goal (unmet s q.met) q.queue q.found

theorem nodup_allPairs (hs : s.visible.Distinct) : s.allPairs.Nodup := by
  refine List.nodup_flatMap.2 ⟨fun name _ => ?_, ?_⟩
  · exact List.Nodup.map (fun _ _ h => (Prod.mk.inj h).2) (by decide)
  · refine List.Pairwise.imp (fun {a b} hne => ?_) hs
    intro x hx hy
    obtain ⟨_, -, rfl⟩ := List.mem_map.1 hx
    obtain ⟨_, -, heq⟩ := List.mem_map.1 hy
    exact hne (Prod.mk.inj heq).1.symm

theorem erase_unmet (hs : s.visible.Distinct) (e : String × RelOp)
    (met : List (String × RelOp)) : (unmet s met).erase e = unmet s (e :: met) := by
  have hnodup : (unmet s met).Nodup := (nodup_allPairs hs).filter _
  rw [unmet_cons, hnodup.erase_eq_filter]
  refine List.filter_congr fun x _ => ?_
  by_cases hx : x = e <;> simp [hx]

/-- A step does not change what the search comes to. -/
theorem answer_step (hs : s.visible.Distinct) (h : q.Waiting s) :
    (q.step s goal).answer s goal = q.answer s goal := by
  obtain ⟨queue, met, found⟩ := q
  cases queue with
  | nil => rfl
  | cons e queue =>
      obtain ⟨name, op⟩ := e
      have hpair : (name, op) ∈ s.allPairs := h _ List.mem_cons_self
      simp only [answer, step]
      rw [follow]
      by_cases hmet : (name, op) ∈ met
      · have hnot : (name, op) ∉ unmet s met := by simp [unmet, hmet]
        rw [if_pos (List.contains_iff_mem.2 hmet), dif_neg hnot]
      · have hnew : (name, op) ∈ unmet s met := List.mem_filter.2 ⟨hpair, by simp [hmet]⟩
        rw [if_neg (by simpa using hmet), dif_pos hnew, erase_unmet hs]
        by_cases hgoal : name = goal
        · rw [if_pos hgoal, if_pos hgoal]
        · rw [if_neg hgoal, if_neg hgoal]

/-- The search comes to what it has found in the end. -/
theorem answer_iterate (hs : s.visible.Distinct) (h : q.Waiting s) (n : Nat) :
    (((step s goal)^[n]) q).answer s goal = q.answer s goal := by
  induction n generalizing q with
  | zero => rfl
  | succ n ih => rw [Function.iterate_succ_apply, ih h.step, answer_step hs h]

theorem answer_of_over (goal : String) (hq : q.queue = []) : q.answer s goal = q.found := by
  rw [answer, hq, follow]

theorem answer_start (lhs rhs : String) : (start s lhs rhs).answer s rhs = s.relation lhs rhs := by
  unfold start relation
  split
  · rw [answer, follow]
  · rw [answer, unmet_nil]

end Inquiry

/-! ## What is found holds -/

/-- The relations that are current hold between the values. -/
def Scopes.Satisfied {V : Type*} [LinearOrder V] (s : Scopes) (value : String → V) : Prop :=
  ∀ name, ∀ r ∈ s.currentRelations name,
    r.op.holds (compare (value name) (value r.other)) = true

/-- A step along a current relation. -/
theorem Scopes.Satisfied.relates_step {V : Type*} [LinearOrder V] {s : Scopes}
    {value : String → V} (h : s.Satisfied value) {a : V} {name : String} {via : RelOp}
    (hvia : via.Relates a (value name)) {e : String × RelOp} (he : e ∈ s.stepsFrom name via) :
    e.2.Relates a (value e.1) := by
  obtain ⟨r, hr, hstep⟩ := List.mem_filterMap.1 he
  obtain ⟨op, hop, rfl⟩ := Option.map_eq_some_iff.1 hstep
  exact hvia.compose (RelOp.holds_compare.1 (h name r hr)) hop

/-- **What is found holds** wherever the relations that are current hold. -/
theorem Scopes.Satisfied.relates {V : Type*} [LinearOrder V] {s : Scopes} {value : String → V}
    (h : s.Satisfied value) {lhs rhs : String} {op : RelOp} (hop : s.relation lhs rhs = some op) :
    op.Relates (value lhs) (value rhs) := by
  unfold Scopes.relation at hop
  split at hop
  · rename_i heq
    cases hop
    exact congrArg value heq
  · have hself : RelOp.eq.Relates (value lhs) (value lhs) := rfl
    exact s.follow_all (P := fun e => e.2.Relates (value lhs) (value e.1))
      (fun name via hvia e he => h.relates_step hvia he) _ _ _
      (fun e he => h.relates_step hself he) (by simp) op hop

/-- **The answer about two variables.**  Whatever relations there are, also in circles and
against each other, the search for a relation ends after at most seven steps for each relation
that is current, with the answer of `Scopes.relation`; and the answer holds for all values of
a totally ordered domain for which the relations that are current hold. -/
theorem relation_answered (s : Scopes) (hs : s.visible.Distinct) (lhs rhs : String) :
    (∃ n ≤ 7 * Inquiry.linkCount s,
      (((Inquiry.step s rhs)^[n]) (.start s lhs rhs)).queue = [] ∧
      (((Inquiry.step s rhs)^[n]) (.start s lhs rhs)).found = s.relation lhs rhs) ∧
    ∀ {V : Type*} [LinearOrder V] (value : String → V), s.Satisfied value →
      ∀ op, s.relation lhs rhs = some op →
        op.holds (compare (value lhs) (value rhs)) = true := by
  have hwaiting := Inquiry.waiting_start (s := s) lhs rhs
  refine ⟨?_, fun value hvalue op hop => RelOp.holds_compare.2 (hvalue.relates hop)⟩
  obtain ⟨n, hn, hover⟩ := Inquiry.exists_over rhs hwaiting
  refine ⟨n, hn.trans (Inquiry.work_start_le lhs rhs), hover, ?_⟩
  rw [← Inquiry.answer_of_over (s := s) rhs hover,
    Inquiry.answer_iterate hs hwaiting, Inquiry.answer_start]

/-- Four variables in a row, each of which is related to its neighbours. -/
def inRow : Scopes :=
  (["a", "b", "c", "d"].foldl (fun (s : Scopes) name => s.insert name (.declared .double)) .empty)
    |>.relate "a" .lt "b" |>.relate "b" .le "c" |>.relate "c" .eq "d"

/-- Values of these variables. -/
def rowValue (name : String) : Nat := if name = "a" then 1 else 2

/-- What is known about the ends of the row, through relations that lead both ways. -/
theorem relation_answered_inRow :
    inRow.visible.Distinct ∧ inRow.Satisfied rowValue ∧
      (∃ n ≤ 7 * Inquiry.linkCount inRow,
        (((Inquiry.step inRow "d")^[n]) (.start inRow "a" "d")).queue = [] ∧
        (((Inquiry.step inRow "d")^[n]) (.start inRow "a" "d")).found =
          inRow.relation "a" "d") ∧
      inRow.relation "a" "d" = some .lt ∧
      RelOp.lt.holds (compare (rowValue "a") (rowValue "d")) = true := by
  have hdistinct : inRow.visible.Distinct :=
    show inRow.visible.keys.Nodup by decide
  have hlisted : ∀ e ∈ inRow.visible.entries, ∀ r ∈ e.2.relations,
      r.op.holds (compare (rowValue e.1) (rowValue r.other)) = true := by decide
  have hvalues : inRow.Satisfied rowValue := by
    intro name r hr
    obtain ⟨v, hv, hmem, -⟩ := mem_currentRelations.1 hr
    rw [← get?_visible] at hv
    exact hlisted _ (Table.mem_entries_of_get? hv) r hmem
  have hop : inRow.relation "a" "d" = some .lt := by cbv
  obtain ⟨hends, hholds⟩ := relation_answered inRow hdistinct "a" "d"
  exact ⟨hdistinct, hvalues, hends, hop, hholds rowValue hvalues .lt hop⟩

end Symbolic
end FlowVerifier
