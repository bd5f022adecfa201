/-!
# Masks

A finite set of numbers is given by a *mask*, the natural number whose binary
digit `i` is one exactly if `i` belongs to the set.

`Mask.ones` lists the members.  It halves the digits until a half is zero, so a
mask with many digits and few ones is listed quickly; `Mask.ones_eq` says that
the list is what looking at each digit would give.
-/

namespace FlowVerifier
namespace Mask

/-- The positions of the ones among the lowest `1 <<< level` digits of `mask`,
each moved up by `offset`, in front of `rest`. -/
def onesFrom : (level mask offset : Nat) → (rest : List Nat) → List Nat
  | 0, mask, offset, rest => if mask.testBit 0 then offset :: rest else rest
  | level + 1, mask, offset, rest =>
    if mask = 0 then rest
    else
      let half := 1 <<< level
      onesFrom level (mask &&& ((1 <<< half) - 1)) offset
        (onesFrom level (mask >>> half) (offset + half) rest)

/-- The positions of the ones among the digits of `mask`, ascending. -/
def ones (mask : Nat) : List Nat := onesFrom (mask.log2.log2 + 1) mask 0 []

theorem onesFrom_eq (level mask offset : Nat) (rest : List Nat) :
    onesFrom level mask offset rest =
      ((List.range (1 <<< level)).filter mask.testBit).map (offset + ·) ++ rest := by
  induction level generalizing mask offset rest with
  | zero =>
    cases h : mask.testBit 0 <;> simp [onesFrom, List.range_succ, h]
  | succ level ih =>
    by_cases hz : mask = 0
    · simp [onesFrom, hz]
    · have hsize : 1 <<< (level + 1) = 1 <<< level + 1 <<< level := by
        rw [Nat.one_shiftLeft, Nat.one_shiftLeft, Nat.pow_succ, Nat.mul_two]
      have hlow : (List.range (1 <<< level)).filter
            (mask &&& ((1 <<< (1 <<< level)) - 1)).testBit =
          (List.range (1 <<< level)).filter mask.testBit := by
        refine List.filter_congr fun i hi => ?_
        rw [Nat.testBit_and, Nat.one_shiftLeft (1 <<< level), Nat.testBit_two_pow_sub_one]
        simp [List.mem_range.mp hi]
      have hhigh : (mask.testBit ∘ fun i => 1 <<< level + i) =
          (mask >>> (1 <<< level)).testBit := by
        funext i
        rw [Function.comp_apply, Nat.testBit_shiftRight]
      rw [onesFrom, if_neg hz, ih, ih, hlow, hsize, List.range_add, List.filter_append,
        List.filter_map, hhigh, List.map_append, List.map_map, List.append_assoc]
      congr 3
      funext i
      rw [Function.comp_apply, Nat.add_assoc]

/-- Past the last number that passes the test a longer range adds nothing. -/
theorem filter_range_eq {n m : Nat} (hle : n ≤ m) {p : Nat → Bool}
    (h : ∀ i, n ≤ i → p i = false) :
    (List.range m).filter p = (List.range n).filter p := by
  obtain ⟨k, rfl⟩ := Nat.exists_eq_add_of_le hle
  rw [List.range_add, List.filter_append, List.filter_map]
  have hnone : (List.range k).filter (p ∘ fun i => n + i) = [] :=
    List.filter_eq_nil_iff.mpr fun i _ => by
      rw [Function.comp_apply, h (n + i) (Nat.le_add_right n i)]
      exact Bool.false_ne_true
  rw [hnone, List.map_nil, List.append_nil]

/-- The ones of a mask are the numbers whose digit is one, looked for below any
bound on them. -/
theorem ones_eq {mask n : Nat} (h : ∀ i, n ≤ i → mask.testBit i = false) :
    ones mask = (List.range n).filter mask.testBit := by
  have hlevel : ∀ i, 1 <<< (mask.log2.log2 + 1) ≤ i → mask.testBit i = false := by
    intro i hi
    refine Nat.testBit_lt_two_pow (Nat.lt_of_lt_of_le Nat.lt_log2_self ?_)
    refine Nat.pow_le_pow_right (by omega) (Nat.le_trans ?_ hi)
    rw [Nat.one_shiftLeft]
    exact Nat.lt_log2_self
  have hmap : ∀ l : List Nat, l.map (0 + ·) = l := fun l => by simp
  rw [ones, onesFrom_eq, List.append_nil, hmap]
  by_cases hle : n ≤ 1 <<< (mask.log2.log2 + 1)
  · exact filter_range_eq hle h
  · exact (filter_range_eq (Nat.le_of_not_le hle) hlevel).symm

end Mask
end FlowVerifier
