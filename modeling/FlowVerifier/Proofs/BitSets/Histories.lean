import FlowVerifier.Proofs.BitSets.Packed
import Mathlib

/-!
# Bit sets are finite sets

A `History` is any sequence of insertions, removals and unions within a capacity, by which a set
came about; `History.members` is the finite set of numbers that it means.  `History.stands` says
that the operations on words go through, and that every question about the outcome is answered
as for this finite set.

It is proved in two steps.  The members of a mask are kept by each operation on masks
(`History.mask?_spec`), and packing takes the operations on masks to those on words
(`History.packed?_eq`), so a question on words is a question on masks.
-/

namespace FlowVerifier

/-! ## The members of a mask -/

namespace BitSet

variable {s t : BitSet} {i : Nat}

/-- The members as a finite set. -/
def members (s : BitSet) : Finset Nat := (Finset.range s.capacity).filter (s.contains · = true)

theorem mem_members : i ∈ s.members ↔ s.contains i = true := by
  rw [members, Finset.mem_filter, Finset.mem_range, and_iff_right_iff_imp]
  exact lt_capacity

theorem members_subset_iff : s.members ⊆ t.members ↔ s.isSubset t = true := by
  rw [isSubset_iff]
  exact forall_congr' fun i => by rw [mem_members, mem_members]

theorem members_inter_nonempty_iff :
    (s.members ∩ t.members).Nonempty ↔ s.intersects t = true := by
  rw [intersects_iff]
  exact exists_congr fun i => by rw [Finset.mem_inter, mem_members, mem_members]

theorem members_eq_empty_iff : s.members = ∅ ↔ s.isEmpty = true := by
  rw [isEmpty_iff, Finset.eq_empty_iff_forall_notMem]
  exact forall_congr' fun i => by rw [mem_members, Bool.not_eq_true]

theorem members_inj (h : s.capacity = t.capacity) : s.members = t.members ↔ s = t := by
  refine ⟨fun hm => BitSet.ext h fun i => ?_, fun h => congrArg members h⟩
  rw [Bool.eq_iff_iff, ← mem_members, ← mem_members, hm]

theorem members_eq_toFinset (s : BitSet) : s.members = s.toList.toFinset :=
  Finset.ext fun i => by rw [mem_members, List.mem_toFinset, mem_toList]

theorem nodup_toList (s : BitSet) : s.toList.Nodup :=
  (pairwise_toList s).imp fun h => Nat.ne_of_lt h

theorem card_members (s : BitSet) : s.members.card = s.count := by
  rw [members_eq_toFinset, List.toFinset_card_of_nodup (nodup_toList s), count]

theorem sum_members (s : BitSet) : ∑ i ∈ s.members, 2 ^ i = s.mask := by
  rw [members_eq_toFinset, List.sum_toFinset _ (nodup_toList s), sum_toList]

/-- A packed set gives back the mask it was made of. -/
theorem mask_packed (s : BitSet) : s.packed.mask = s := by
  refine BitSet.ext (capacity_ofList _ _) fun i => ?_
  rw [Bool.eq_iff_iff, PackedSet.mask, contains_ofList, toList_packed, mem_toList,
    and_iff_left_iff_imp]
  exact lt_capacity

end BitSet

namespace PackedSet

/-! ## Histories -/

/-- How a set with capacity `n` came about. -/
inductive History (n : Nat)
  /-- An empty set. -/
  | new
  /-- A number was added. -/
  | insert (h : History n) (i : Fin n)
  /-- A number was taken out. -/
  | remove (h : History n) (i : Fin n)
  /-- The members of another set were added. -/
  | union (h k : History n)

namespace History

variable {n : Nat}

/-- The numbers that are left in the end. -/
def members : History n → Finset Nat
  | new => ∅
  | insert h i => Insert.insert i.val h.members
  | remove h i => h.members.erase i
  | union h k => h.members ∪ k.members

/-- The set in words; `none` if an operation is refused. -/
def packed? : History n → Option PackedSet
  | new => some (.empty n)
  | insert h i => h.packed?.bind fun s => (s.insert? i).map Prod.fst
  | remove h i => h.packed?.bind fun s => s.erase? i
  | union h k => h.packed?.bind fun s => k.packed?.bind fun t => (s.union? t).map Prod.fst

/-- The set as a mask; `none` if an operation is refused. -/
def mask? : History n → Option BitSet
  | new => some (.empty n)
  | insert h i => h.mask?.bind fun s => s.insert? i
  | remove h i => h.mask?.bind fun s => s.erase? i
  | union h k => h.mask?.bind fun s => k.mask?.bind fun t => s.union? t

/-- **Masks go through a history**, and hold its members in the end. -/
theorem mask?_spec (h : History n) :
    ∃ s, h.mask? = some s ∧ s.capacity = n ∧ s.members = h.members := by
  induction h with
  | new =>
      refine ⟨.empty n, rfl, rfl, Finset.eq_empty_iff_forall_notMem.2 fun i hi => ?_⟩
      exact absurd (BitSet.mem_members.1 hi) (by simp [BitSet.empty, BitSet.contains])
  | insert h i ih =>
      obtain ⟨s, hs, rfl, hmembers⟩ := ih
      obtain ⟨t, ht, hcapacity, hcontains⟩ := BitSet.insert?_of_lt i.isLt
      refine ⟨t, by rw [mask?, hs, Option.bind_some, ht], hcapacity, Finset.ext fun j => ?_⟩
      rw [members, Finset.mem_insert, ← hmembers, BitSet.mem_members, BitSet.mem_members,
        hcontains, Bool.or_eq_true, decide_eq_true_iff, or_comm]
  | remove h i ih =>
      obtain ⟨s, hs, rfl, hmembers⟩ := ih
      obtain ⟨t, ht, hcapacity, hcontains⟩ := BitSet.erase?_of_lt i.isLt
      refine ⟨t, by rw [mask?, hs, Option.bind_some, ht], hcapacity, Finset.ext fun j => ?_⟩
      rw [members, Finset.mem_erase, ← hmembers, BitSet.mem_members, BitSet.mem_members,
        hcontains, Bool.and_eq_true, decide_eq_true_iff, and_comm]
  | union h k ihh ihk =>
      obtain ⟨s, hs, rfl, hmembers⟩ := ihh
      obtain ⟨t, ht, hcapacity, hmembers'⟩ := ihk
      obtain ⟨u, hu, hcapacity', hcontains⟩ := BitSet.union?_of_eq hcapacity.symm
      refine ⟨u, by rw [mask?, hs, ht, Option.bind_some, Option.bind_some, hu], hcapacity',
        Finset.ext fun j => ?_⟩
      rw [members, Finset.mem_union, ← hmembers, ← hmembers', BitSet.mem_members,
        BitSet.mem_members, BitSet.mem_members, hcontains, Bool.or_eq_true]

/-- Words go through a history as masks do. -/
theorem packed?_eq (h : History n) : h.packed? = h.mask?.map BitSet.packed := by
  induction h with
  | new => exact congrArg some (BitSet.packed_empty n).symm
  | insert h i ih =>
      rw [packed?, mask?, ih]
      cases h.mask? with
      | none => rfl
      | some s =>
          simp only [Option.map_some, Option.bind_some, BitSet.insert?_packed, Option.map_map]
          rfl
  | remove h i ih =>
      rw [packed?, mask?, ih]
      cases h.mask? with
      | none => rfl
      | some s => exact BitSet.erase?_packed s i
  | union h k ihh ihk =>
      rw [packed?, mask?, ihh, ihk]
      cases h.mask? with
      | none => rfl
      | some s =>
          cases k.mask? with
          | none => rfl
          | some t =>
              simp only [Option.map_some, Option.bind_some, BitSet.union?_packed, Option.map_map]
              rfl

end History

/-! ## What a set stands for -/

/-- A cursor lists the numbers of `l`, one after the other, and comes to its end. -/
inductive Cursor.Yields : Cursor → List Nat → Prop
  /-- There is nothing to list. -/
  | done {c : Cursor} : c.next? = none → Yields c []
  /-- A number is listed before the rest. -/
  | more {c d : Cursor} {i : Nat} {l : List Nat} :
      c.next? = some (i, d) → Yields d l → Yields c (i :: l)

theorem Cursor.yields_toList (c : Cursor) : c.Yields c.toList := by
  fun_induction toList c with
  | case1 c i d h ih => exact .more h ih
  | case2 c h => exact .done h

/-- Words with capacity `n` that answer as a finite set of numbers does. -/
structure StandsFor (s : PackedSet) (n : Nat) (members : Finset Nat) : Prop where
  /-- The capacity is the one that was asked for, and there are words for it. -/
  capacity : s.capacity = n ∧ s.words.size = (n + 63) / 64
  /-- No digit at or above the capacity is one. -/
  clean : ∀ (k : Nat) w, s.words[k]? = some w → ∀ j, n ≤ 64 * k + j → w.toNat.testBit j = false
  /-- Membership. -/
  contains : ∀ i, s.contains i = decide (i ∈ members)
  /-- The number of members. -/
  count : s.count = members.card
  /-- Emptiness. -/
  isEmpty : s.isEmpty = decide (members = ∅)
  /-- The listing gives the members, ascending, and ends. -/
  listed : s.start.Yields s.toList ∧ s.toList.Pairwise (· < ·) ∧ ∀ i, i ∈ s.toList ↔ i ∈ members
  /-- A number can be added, and the answer says whether that changes the set. -/
  insert : ∀ i < n, ∃ t, s.insert? i = some (t, decide (Insert.insert i members ≠ members))

/-- Words that compare as two finite sets do. -/
structure CompareAs (s t : PackedSet) (members others : Finset Nat) : Prop where
  /-- Inclusion. -/
  isSubset : s.isSubset? t = some (decide (members ⊆ others))
  /-- A common member. -/
  intersects : s.intersects? t = some (decide (members ∩ others).Nonempty)
  /-- Equality. -/
  eq : s = t ↔ members = others
  /-- The union can be formed, and the answer says whether it changes the first set. -/
  union : ∃ u, s.union? t = some (u, decide (members ∪ others ≠ members))

theorem standsFor_packed (s : BitSet) : s.packed.StandsFor s.capacity s.members where
  capacity := ⟨rfl, by rw [BitSet.packed, BitSet.words, BitSet.wordsOf]; simp⟩
  clean k w hw j hj := by
    rw [BitSet.getElem?_packed] at hw
    split at hw
    · obtain rfl := Option.some.inj hw
      by_cases hlt : j < 64
      · rw [BitSet.testBit_word s k hlt, BitSet.contains_of_le hj]
      · exact Bool.eq_false_iff.2 fun hc =>
          hlt (List.mem_range.1 (List.mem_filter.1 (mem_ones.2 hc)).1)
    · exact absurd hw (by simp)
  contains i := by
    rw [BitSet.contains_packed, Bool.eq_iff_iff, decide_eq_true_iff, BitSet.mem_members]
  count := by rw [BitSet.count_packed, BitSet.card_members]
  isEmpty := by
    rw [BitSet.isEmpty_packed, Bool.eq_iff_iff, decide_eq_true_iff, BitSet.members_eq_empty_iff]
  listed := by
    refine ⟨Cursor.yields_toList _, ?_, fun i => ?_⟩
    · rw [BitSet.toList_packed]
      exact BitSet.pairwise_toList s
    · rw [BitSet.toList_packed, BitSet.mem_toList, BitSet.mem_members]
  insert i hi := by
    obtain ⟨t, ht, -⟩ := BitSet.insert?_of_lt hi
    have hflag : (!s.contains i) = decide (Insert.insert i s.members ≠ s.members) := by
      rw [Bool.eq_iff_iff, decide_eq_true_iff, Finset.insert_ne_self, BitSet.mem_members,
        Bool.not_eq_true', Bool.not_eq_true]
    exact ⟨t.packed, by rw [BitSet.insert?_packed, ht, Option.map_some, hflag]⟩

theorem compareAs_packed {s t : BitSet} (h : s.capacity = t.capacity) :
    s.packed.CompareAs t.packed s.members t.members where
  isSubset := by
    rw [BitSet.isSubset?_packed, BitSet.ifComparable, if_pos h, Option.some.injEq,
      Bool.eq_iff_iff, decide_eq_true_iff, BitSet.members_subset_iff]
  intersects := by
    rw [BitSet.intersects?_packed, BitSet.ifComparable, if_pos h, Option.some.injEq,
      Bool.eq_iff_iff, decide_eq_true_iff, BitSet.members_inter_nonempty_iff]
  eq := BitSet.packed_inj.trans (BitSet.members_inj h).symm
  union := by
    obtain ⟨u, hu, hcapacity, hcontains⟩ := BitSet.union?_of_eq h
    have hmembers : u.members = s.members ∪ t.members := Finset.ext fun i => by
      rw [Finset.mem_union, BitSet.mem_members, BitSet.mem_members, BitSet.mem_members, hcontains,
        Bool.or_eq_true]
    have hflag : decide (u ≠ s) = decide (s.members ∪ t.members ≠ s.members) := by
      rw [decide_eq_decide, ← hmembers]
      exact not_congr (BitSet.members_inj hcapacity).symm
    exact ⟨u.packed, by rw [BitSet.union?_packed, hu, Option.map_some, hflag]⟩

/-- **Bit sets are finite sets.**  Whatever is added, taken out and united within a capacity, no
operation is refused, and the words that come of it answer every question as the finite set does
that the history means.  The mask of the same history is the same set. -/
theorem History.stands {n : Nat} (h k : History n) :
    ∃ s t, h.packed? = some s ∧ k.packed? = some t ∧
      s.StandsFor n h.members ∧ s.CompareAs t h.members k.members ∧
      h.mask? = some s.mask ∧ s.mask.members = h.members ∧ s.mask.packed = s := by
  obtain ⟨s, hs, hcapacity, hmembers⟩ := h.mask?_spec
  obtain ⟨t, ht, hcapacity', hmembers'⟩ := k.mask?_spec
  refine ⟨s.packed, t.packed, by rw [packed?_eq, hs, Option.map_some],
    by rw [packed?_eq, ht, Option.map_some], ?_, ?_, ?_, ?_, ?_⟩
  · rw [← hmembers]
    exact hcapacity ▸ standsFor_packed s
  · rw [← hmembers, ← hmembers']
    exact compareAs_packed (hcapacity.trans hcapacity'.symm)
  · rw [BitSet.mask_packed, hs]
  · rw [BitSet.mask_packed, hmembers]
  · rw [BitSet.mask_packed]

/-- **Comparison.**  The words of two histories compare as the numbers whose binary digits the
members are. -/
theorem History.compare?_eq {n : Nat} (h k : History n) :
    ∃ s t, h.packed? = some s ∧ k.packed? = some t ∧
      s.compare? t = some (compare (∑ i ∈ h.members, 2 ^ i) (∑ i ∈ k.members, 2 ^ i)) := by
  obtain ⟨s, hs, hcapacity, hmembers⟩ := h.mask?_spec
  obtain ⟨t, ht, hcapacity', hmembers'⟩ := k.mask?_spec
  refine ⟨s.packed, t.packed, by rw [packed?_eq, hs, Option.map_some],
    by rw [packed?_eq, ht, Option.map_some], ?_⟩
  rw [BitSet.compare?_packed, BitSet.ifComparable, if_pos (hcapacity.trans hcapacity'.symm),
    BitSet.compareMask, ← hmembers, ← hmembers', BitSet.sum_members, BitSet.sum_members]

/-- Members in three words, one of them empty, and a number that was taken out again. -/
example : (((((History.new (n := 130)).insert 129).insert 5).insert 3).remove 5).packed?.map
    (fun s => (s.count, s.words)) = some (2, #[8, 0, 2]) := by cbv

end PackedSet
end FlowVerifier
