import Mathlib.Order.Bounds.Basic
import Mathlib.Data.Set.Card

/-!
# Words as finite sets of bit positions

A word `x : BitVec w` is read as the set `BitMask.bits x` of the positions at which it has a one.
Setting a bit inserts its position, masking a bit out erases it, and the position of the highest
set bit, which hardware finds by counting leading zeros, is the greatest element of the set.

## Main definitions

* `BitMask.bits`: the positions of the set bits of a word.
* `BitMask.ofPred`: the word whose set bits are the positions with a property.
* `BitMask.top`: the position of the highest set bit.

## Main results

* `BitMask.getLsbD_insert`, `BitMask.getLsbD_erase`: setting and clearing one bit.
* `BitMask.bits_erase`, `BitMask.ncard_bits_erase`: clearing a bit as removing its position.
* `BitMask.isGreatest_top`: the highest set bit is the greatest element of `bits x`.
* `BitMask.top_eq_of_isGreatest`: the greatest element of `bits x` is the highest set bit.
-/

namespace BitMask

variable {w : ℕ}

/-- The positions of the set bits of a word. -/
def bits (x : BitVec w) : Set ℕ := {i | x.getLsbD i = true}

@[simp] theorem mem_bits {x : BitVec w} {i : ℕ} : i ∈ bits x ↔ x.getLsbD i = true := Iff.rfl

theorem bits_injective : Function.Injective (bits : BitVec w → Set ℕ) := by
  intro x y h
  refine BitVec.eq_of_getLsbD_eq fun i _ => ?_
  rw [Bool.eq_iff_iff]
  exact Set.ext_iff.mp h i

theorem eq_zero_iff {x : BitVec w} : x = 0#w ↔ ∀ i, x.getLsbD i = false := by
  refine ⟨?_, fun h => BitVec.eq_of_getLsbD_eq fun i _ => by simp [h i]⟩
  rintro rfl i
  simp

theorem ne_zero_of_getLsbD {x : BitVec w} {i : ℕ} (h : x.getLsbD i = true) : x ≠ 0#w := by
  rintro rfl
  simp at h

/-! ### One bit -/

theorem getLsbD_one_shiftLeft {i : ℕ} (hi : i < w) (j : ℕ) :
    (1#w <<< i).getLsbD j = decide (j = i) := by
  have hw : 0 < w := by omega
  simp only [BitVec.getLsbD_shiftLeft, BitVec.getLsbD_one, hw, decide_true, Bool.true_and]
  by_cases hj : j = i
  · subst hj
    simp [hi]
  · have : ¬(j < w ∧ ¬j < i ∧ j - i = 0) := by omega
    simp only [hj, decide_false]
    by_contra hne
    simp only [Bool.not_eq_false, Bool.and_eq_true, Bool.not_eq_true', decide_eq_true_eq,
      decide_eq_false_iff_not] at hne
    exact this ⟨hne.1.1, hne.1.2, hne.2⟩

/-- Setting the bit `i` inserts `i`. -/
theorem getLsbD_insert {i : ℕ} (hi : i < w) (x : BitVec w) (j : ℕ) :
    (x ||| 1#w <<< i).getLsbD j = (x.getLsbD j || decide (j = i)) := by
  rw [BitVec.getLsbD_or, getLsbD_one_shiftLeft hi]

/-- Masking the bit `i` out erases `i`. -/
theorem getLsbD_erase {i : ℕ} (hi : i < w) (x : BitVec w) (j : ℕ) :
    (x &&& ~~~(1#w <<< i)).getLsbD j = (x.getLsbD j && !decide (j = i)) := by
  rw [BitVec.getLsbD_and, BitVec.getLsbD_not, getLsbD_one_shiftLeft hi]
  by_cases hj : j < w
  · simp [hj]
  · simp [BitVec.getLsbD_of_ge x j (by omega)]

theorem bits_erase {i : ℕ} (hi : i < w) (x : BitVec w) :
    bits (x &&& ~~~(1#w <<< i)) = bits x \ {i} := by
  ext j
  simp [getLsbD_erase hi]

theorem finite_bits (x : BitVec w) : (bits x).Finite :=
  (Set.finite_lt_nat w).subset fun _ hi => BitVec.lt_of_getLsbD hi

/-- Clearing a bit that is set leaves one bit less. -/
theorem ncard_bits_erase {i : ℕ} {x : BitVec w} (hi : x.getLsbD i = true) :
    (bits (x &&& ~~~(1#w <<< i))).ncard + 1 = (bits x).ncard := by
  rw [bits_erase (BitVec.lt_of_getLsbD hi)]
  exact Set.ncard_sdiff_singleton_add_one hi (finite_bits x)

/-! ### Words from predicates -/

/-- The word of `w` bits whose bit `i` is `f i`. -/
def ofPred (f : ℕ → Bool) : (w : ℕ) → BitVec w
  | 0 => 0#0
  | w + 1 => (ofPred f w).cons (f w)

theorem getLsbD_ofPred (f : ℕ → Bool) (i : ℕ) :
    (ofPred f w).getLsbD i = (decide (i < w) && f i) := by
  induction w with
  | zero => simp
  | succ w ih =>
    rw [ofPred, BitVec.getLsbD_cons, ih]
    split_ifs with hi
    · simp [hi]
    · have : i < w + 1 ↔ i < w := by omega
      simp [this]

/-! ### The highest set bit -/

/-- The position of the highest set bit, found by counting leading zeros. -/
def top (x : BitVec w) : ℕ := w - 1 - x.clz.toNat

theorem top_lt (hw : 0 < w) (x : BitVec w) : top x < w := by
  rw [top]
  omega

theorem clz_toNat_lt {x : BitVec w} (hx : x ≠ 0#w) : x.clz.toNat < w := by
  have hlt := BitVec.lt_def.mp (BitVec.clz_lt_iff_ne_zero.mpr hx)
  simpa [Nat.mod_eq_of_lt Nat.lt_two_pow_self] using hlt

theorem getLsbD_top {x : BitVec w} (hx : x ≠ 0#w) : x.getLsbD (top x) = true := by
  have hw : 0 < w := lt_of_le_of_lt (Nat.zero_le _) (clz_toNat_lt hx)
  exact BitVec.getLsbD_true_clz_of_ne_zero hw hx

theorem le_top_of_getLsbD {x : BitVec w} {i : ℕ} (h : x.getLsbD i = true) : i ≤ top x := by
  have hx := ne_zero_of_getLsbD h
  have hclz := clz_toNat_lt hx
  have hlt : i < w - x.clz.toNat := by
    by_contra hge
    have hle : x.toNat < 2 ^ i :=
      lt_of_lt_of_le BitVec.toNat_lt_two_pow_sub_clz (Nat.pow_le_pow_right (by omega) (by omega))
    rw [BitVec.getLsbD, Nat.testBit_lt_two_pow hle] at h
    exact Bool.false_ne_true h
  rw [top]
  omega

/-- The highest set bit of a nonzero word is the greatest element of its set of positions. -/
theorem isGreatest_top {x : BitVec w} (hx : x ≠ 0#w) : IsGreatest (bits x) (top x) :=
  ⟨getLsbD_top hx, fun _ hi => le_top_of_getLsbD hi⟩

theorem top_eq_of_isGreatest {x : BitVec w} {i : ℕ} (h : IsGreatest (bits x) i) : top x = i :=
  (isGreatest_top (ne_zero_of_getLsbD h.1)).unique h

end BitMask
