import LiteRTOS.Library.ByteBlock
import Mathlib.Tactic.ByContra
import Mathlib.Tactic.SplitIfs

/-!
# Copying and filling bytes

A loop that copies bytes one after the other, the first one first, reads a byte of the destination
that it has written before if the blocks overlap that way. The result is known without any
condition on the blocks: the destination repeats the first bytes of the source with the distance of
the blocks as the period (`ByteMemory.copyBytes_apply`).

## Main definitions

* `ByteMemory.copyBytes`, `ByteMemory.fillBytes`: the loops.

## Main results

* `ByteMemory.copyBytes_apply`, `ByteMemory.fillBytes_apply`: the memory after the loops.
* `ByteMemory.copyBytes_eq_iff`: when the destination is a copy of the source.
-/

namespace ByteMemory

variable {m : ByteMemory} {dst src a b : BitVec 32} {n : ℕ}

/-- `for (i = 0; i < n; ++i) dst[i] = src[i]`. -/
def copyBytes (m : ByteMemory) (dst src : BitVec 32) : ℕ → ByteMemory
  | 0 => m
  | n + 1 =>
    let m := copyBytes m dst src n
    m.store8 (dst + BitVec.ofNat 32 n) (m.load8 (src + BitVec.ofNat 32 n))

/-- `for (i = 0; i < n; ++i) a[i] = v`. -/
def fillBytes (m : ByteMemory) (a : BitVec 32) (v : BitVec 8) : ℕ → ByteMemory
  | 0 => m
  | n + 1 => (fillBytes m a v n).store8 (a + BitVec.ofNat 32 n) v

/-- The byte that an iteration stores. -/
theorem store8_add_apply (m : ByteMemory) (a b : BitVec 32) {n : ℕ} (hn : n < 2 ^ 32)
    (v : BitVec 8) :
    store8 m (a + BitVec.ofNat 32 n) v b = if (b - a).toNat = n then v else m b := by
  have hiff : b = a + BitVec.ofNat 32 n ↔ (b - a).toNat = n := by
    constructor
    · rintro rfl
      bv_omega
    · intro h
      bv_omega
  simp only [store8, hiff]

/-- Filling writes `n` bytes. -/
theorem fillBytes_apply (hn : n ≤ 2 ^ 32) (m : ByteMemory) (a : BitVec 32) (v : BitVec 8)
    (b : BitVec 32) : fillBytes m a v n b = if (b - a).toNat < n then v else m b := by
  induction n with
  | zero => simp [fillBytes]
  | succ n ih =>
    rw [fillBytes, store8_add_apply _ _ _ (by omega), ih (by omega)]
    split_ifs <;> first | rfl | omega

/-- Copying repeats the source with the distance of the blocks as the period. Blocks at one place
are at the distance zero, and `i % 0` is `i`. -/
theorem copyBytes_apply (hn : n ≤ 2 ^ 32) (m : ByteMemory) (dst src b : BitVec 32) :
    copyBytes m dst src n b = if (b - dst).toNat < n then
      m (src + BitVec.ofNat 32 ((b - dst).toNat % (dst - src).toNat)) else m b := by
  induction n generalizing b with
  | zero => simp [copyBytes]
  | succ n ih =>
    rw [copyBytes, store8_add_apply _ _ _ (by omega), load8, ih (by omega), ih (by omega)]
    -- the byte number `n` of the source has been written if it is a byte of the destination
    have hsrc : src + BitVec.ofNat 32 n - dst = BitVec.ofNat 32 n - (dst - src) := by bv_omega
    by_cases hb : (b - dst).toNat = n
    · have hlt : (b - dst).toNat < n + 1 := by omega
      rw [if_pos hb, if_pos hlt, hb, hsrc]
      by_cases hd : (dst - src).toNat = 0 ∨ n < (dst - src).toNat
      · have hge : ¬(BitVec.ofNat 32 n - (dst - src)).toNat < n := by bv_omega
        have hmod : n % (dst - src).toNat = n := by
          rcases hd with hd | hd
          · rw [hd, Nat.mod_zero]
          · exact Nat.mod_eq_of_lt hd
        rw [if_neg hge, hmod]
      · have hsub : (BitVec.ofNat 32 n - (dst - src)).toNat = n - (dst - src).toNat := by bv_omega
        rw [hsub, if_pos (by omega), ← Nat.mod_eq_sub_mod (by omega)]
    · rw [if_neg hb]
      have hiff : (b - dst).toNat < n ↔ (b - dst).toNat < n + 1 := by omega
      simp only [hiff]

/-- The destination is a copy of the source, whatever the memory, exactly if the blocks are at one
place or the source does not run into the destination. -/
theorem copyBytes_eq_iff (hn : n ≤ 2 ^ 32) :
    (∀ m i, i < n → copyBytes m dst src n (dst + BitVec.ofNat 32 i) =
      m (src + BitVec.ofNat 32 i)) ↔ dst = src ∨ n ≤ (dst - src).toNat := by
  have hbyte (i : ℕ) (hi : i < n) : (dst + BitVec.ofNat 32 i - dst).toNat = i := by bv_omega
  constructor
  · intro h
    by_contra hoverlap
    obtain ⟨hne, hlt⟩ := not_or.mp hoverlap
    have hlt := Nat.not_le.mp hlt
    -- the first byte that is overwritten before it is copied
    have hd := h (fun b => if b = src then 1 else 0) (dst - src).toNat hlt
    have haddr : src + BitVec.ofNat 32 (dst - src).toNat ≠ src := by
      rw [BitVec.ofNat_toNat, BitVec.setWidth_eq]
      intro heq
      refine hne ?_
      bv_omega
    rw [copyBytes_apply hn, hbyte _ hlt, if_pos hlt, Nat.mod_self, if_neg haddr] at hd
    simp at hd
  · rintro hsafe m i hi
    rw [copyBytes_apply hn, hbyte i hi, if_pos hi]
    rcases hsafe with rfl | hle
    · rw [BitVec.sub_self, BitVec.toNat_ofNat, Nat.zero_mod, Nat.mod_zero]
    · rw [Nat.mod_eq_of_lt (by omega)]

end ByteMemory
