import Mathlib.Data.Nat.Notation

/-!
# Byte memory of a 32-bit little-endian machine

A memory gives a byte for every 32-bit address. A word access reads or writes the four bytes from
its address on, least significant byte first; addresses wrap around at `2^32`.

## Main definitions

* `ByteMemory`, `ByteMemory.load8`, `ByteMemory.store8`, `ByteMemory.load32`,
  `ByteMemory.store32`.
* `ByteMemory.Apart`: two words with no common byte.

## Main results

* `ByteMemory.load32_store32_self`: a stored word is read back.
* `ByteMemory.store32_load32_or`: the effect of `|=` on a word.
* `ByteMemory.load32_store32_of_apart`, `ByteMemory.load32_store8_of_notMem`,
  `ByteMemory.store32_of_notMem`: what an access leaves alone.
-/

/-- A byte for every address of a 32-bit address space. -/
abbrev ByteMemory := BitVec 32 → BitVec 8

namespace ByteMemory

variable (m : ByteMemory) (a b : BitVec 32)

/-- The byte at an address. -/
def load8 : BitVec 8 := m a

/-- Write one byte. -/
def store8 (v : BitVec 8) : ByteMemory := fun b => if b = a then v else m b

/-- The word at an address, least significant byte first. -/
def load32 : BitVec 32 := m (a + 3) ++ m (a + 2) ++ m (a + 1) ++ m a

/-- Write one word, least significant byte first. -/
def store32 (v : BitVec 32) : ByteMemory := fun b =>
  if (b - a).toNat < 4 then v.extractLsb' (8 * (b - a).toNat) 8 else m b

variable {m a b}

theorem store8_of_ne (h : b ≠ a) (v : BitVec 8) : store8 m a v b = m b := by simp [store8, h]

theorem store32_of_mem (h : (b - a).toNat < 4) (v : BitVec 32) :
    store32 m a v b = v.extractLsb' (8 * (b - a).toNat) 8 :=
  if_pos h

theorem store32_of_notMem (h : 4 ≤ (b - a).toNat) (v : BitVec 32) : store32 m a v b = m b :=
  if_neg (Nat.not_lt.mpr h)

/-- Equal bytes make equal words. -/
theorem load32_congr {m' : ByteMemory} (h : ∀ i : BitVec 32, i.toNat < 4 → m' (a + i) = m (a + i)) :
    load32 m' a = load32 m a := by
  have h0 := h 0 (by decide)
  simp only [BitVec.ofNat_eq_ofNat, BitVec.add_zero] at h0
  simp only [load32, h 1 (by decide), h 2 (by decide), h 3 (by decide), h0]

/-- A word is the concatenation of its bytes. -/
theorem append_extractLsb' (v : BitVec 32) :
    v.extractLsb' 24 8 ++ v.extractLsb' 16 8 ++ v.extractLsb' 8 8 ++ v.extractLsb' 0 8 = v := by
  refine BitVec.eq_of_getLsbD_eq fun i hi => ?_
  simp only [BitVec.getLsbD_append, BitVec.getLsbD_extractLsb']
  by_cases h0 : i < 8
  · simp [h0]
  by_cases h1 : i < 16
  · simp [h0, show i - 8 < 8 by omega, show 8 + (i - 8) = i by omega]
  by_cases h2 : i < 24
  · simp [h0, show ¬i - 8 < 8 by omega, show i - 8 - 8 < 8 by omega,
      show 16 + (i - 8 - 8) = i by omega]
  · simp [h0, show ¬i - 8 < 8 by omega, show ¬i - 8 - 8 < 8 by omega,
      show i - 8 - 8 - 8 < 8 by omega, show 24 + (i - 8 - 8 - 8) = i by omega]

@[simp] theorem load32_store32_self (v : BitVec 32) : load32 (store32 m a v) a = v := by
  have h (i : BitVec 32) (hi : i.toNat < 4) :
      store32 m a v (a + i) = v.extractLsb' (8 * i.toNat) 8 := by
    have hsub : a + i - a = i := by rw [BitVec.add_comm, BitVec.add_sub_cancel]
    rw [store32_of_mem (by rwa [hsub]), hsub]
  have h0 := h 0 (by decide)
  simp only [BitVec.ofNat_eq_ofNat, BitVec.add_zero] at h0
  rw [load32, h 1 (by decide), h 2 (by decide), h 3 (by decide), h0]
  exact append_extractLsb' v

/-- The bytes of the word read at `a`. -/
theorem extractLsb'_load32 {b : BitVec 32} (h : (b - a).toNat < 4) :
    (load32 m a).extractLsb' (8 * (b - a).toNat) 8 = m b := by
  have hb : b = a + BitVec.ofNat 32 (b - a).toNat := by
    rw [BitVec.ofNat_toNat, BitVec.setWidth_eq, BitVec.add_comm, BitVec.sub_add_cancel]
  generalize (b - a).toNat = n at h hb
  subst hb
  refine BitVec.eq_of_getLsbD_eq fun i hi => ?_
  simp only [load32, BitVec.getLsbD_extractLsb', BitVec.getLsbD_append]
  obtain rfl | rfl | rfl | rfl : n = 0 ∨ n = 1 ∨ n = 2 ∨ n = 3 := by omega
  · simp [hi]
  · simp [hi, show 8 + i - 8 = i by omega]
  · simp [hi, show ¬16 + i < 8 by omega, show 16 + i - 8 - 8 = i by omega,
      show ¬16 + i - 8 < 8 by omega]
  · simp [hi, show ¬24 + i < 8 by omega, show 24 + i - 8 - 8 - 8 = i by omega,
      show ¬24 + i - 8 < 8 by omega, show ¬24 + i - 8 - 8 < 8 by omega]

/-- `|=` on a word is `|=` on its bytes. -/
theorem store32_load32_or (v : BitVec 32) :
    store32 m a (load32 m a ||| v) b =
      if (b - a).toNat < 4 then m b ||| v.extractLsb' (8 * (b - a).toNat) 8 else m b := by
  by_cases h : (b - a).toNat < 4
  · rw [store32_of_mem h, if_pos h, BitVec.extractLsb'_or, extractLsb'_load32 h]
  · rw [store32_of_notMem (Nat.not_lt.mp h), if_neg h]

/-! ### Accesses that do not meet -/

/-- The words at `a` and at `b` have no common byte. -/
def Apart (a b : BitVec 32) : Prop := 4 ≤ (b - a).toNat ∧ 4 ≤ (a - b).toNat

instance : Decidable (Apart a b) := inferInstanceAs (Decidable (_ ∧ _))

theorem Apart.symm (h : Apart a b) : Apart b a := ⟨h.2, h.1⟩

/-- A byte of the word at `b` is not a byte of a word apart from it. -/
theorem Apart.byte (h : Apart a b) {i : BitVec 32} (hi : i.toNat < 4) :
    4 ≤ (b + i - a).toNat := by
  obtain ⟨h₁, h₂⟩ := h
  bv_omega

theorem load32_store32_of_apart (h : Apart a b) (v : BitVec 32) :
    load32 (store32 m a v) b = load32 m b :=
  load32_congr fun _ hi => store32_of_notMem (h.byte hi) v

theorem load32_store8_of_notMem (h : 4 ≤ (a - b).toNat) (v : BitVec 8) :
    load32 (store8 m a v) b = load32 m b := by
  refine load32_congr fun i hi => store8_of_ne ?_ v
  rintro rfl
  have hsub : b + i - b = i := by rw [BitVec.add_comm, BitVec.add_sub_cancel]
  rw [hsub] at h
  omega

end ByteMemory
