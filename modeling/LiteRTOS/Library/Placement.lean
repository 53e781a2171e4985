import LiteRTOS.Library.ByteBlock
import Mathlib.Data.Set.Operations

/-!
# Objects placed in byte memory

A placement gives every object of a program an address and a size such that no two objects have a
byte in common. The members of structures and the elements of arrays are parts of an object, and
are placed themselves. What a piece of code may write is a set of objects: the rest of the memory
is framed.

## Main definitions

* `ByteMemory.Placement`: disjoint objects.
* `ByteMemory.Placement.Parts`, `ByteMemory.Placement.Parts.placement`: disjoint parts of the
  objects, and their placement.
* `ByteMemory.Placement.Frame`: two memories differ in the given objects only.

## Main results

* `ByteMemory.Placement.frame_store32`, `ByteMemory.Placement.frame_store8`: the frame of a store.
* `ByteMemory.Placement.Frame.sameOn`: the other objects keep their bytes.
* `ByteMemory.Placement.Parts.frame`: a frame of parts is one of the objects.
-/

namespace ByteMemory

/-- Objects with addresses and sizes, no two of them with a common byte. -/
structure Placement (ο : Type*) where
  addr : ο → BitVec 32
  size : ο → ℕ
  size_le : ∀ x, size x ≤ 2 ^ 32
  apart : ∀ x y, x ≠ y → BlocksApart (addr x) (size x) (addr y) (size y)

/-- Blocks that follow one another below the end of the address space. -/
theorem blocksApart_ofNat {i j n k : ℕ} (hn : 0 < n) (hk : 0 < k) (h : i + n ≤ j)
    (hend : j + k ≤ 2 ^ 32) : BlocksApart (BitVec.ofNat 32 i) n (BitVec.ofNat 32 j) k := by
  constructor <;> bv_omega

namespace Placement

variable {ο ν : Type*} (P : Placement ο)

/-! ### Frames -/

/-- The memory `m'` differs from `m` in the objects of `W` only. -/
def Frame (W : Set ο) (m m' : ByteMemory) : Prop :=
  ∀ b : BitVec 32, (∀ x ∈ W, P.size x ≤ (b - P.addr x).toNat) → m' b = m b

variable {P} {W W' : Set ο} {m m' m'' : ByteMemory} {x y : ο}

theorem Frame.refl : P.Frame W m m := fun _ _ => rfl

theorem Frame.trans (h : P.Frame W m m') (h' : P.Frame W m' m'') : P.Frame W m m'' :=
  fun b hb => (h' b hb).trans (h b hb)

theorem Frame.mono (h : P.Frame W m m') (hW : ∀ x ∈ W, x ∈ W') : P.Frame W' m m' :=
  fun b hb => h b fun x hx => hb x (hW x hx)

/-- A block apart from the objects that are written keeps its bytes. -/
theorem Frame.sameOn_of_apart (h : P.Frame W m m') {a : BitVec 32} {n : ℕ}
    (ha : ∀ x ∈ W, BlocksApart (P.addr x) (P.size x) a n) : SameOn a n m m' :=
  fun b hb => h b fun x hx => (ha x hx).le_of_lt hb

/-- An object that is not written keeps its bytes. -/
theorem Frame.sameOn (h : P.Frame W m m') (hy : y ∉ W) : SameOn (P.addr y) (P.size y) m m' :=
  h.sameOn_of_apart fun x hx => P.apart x y fun hxy => hy (hxy ▸ hx)

theorem Frame.load32_eq (h : P.Frame W m m') (hy : y ∉ W) (hsize : P.size y = 4) :
    load32 m' (P.addr y) = load32 m (P.addr y) := by
  have hsame := h.sameOn hy
  rw [hsize] at hsame
  exact hsame.load32_eq

theorem frame_store32 (hx : x ∈ W) (hsize : P.size x = 4) (v : BitVec 32) :
    P.Frame W m (store32 m (P.addr x) v) :=
  fun _ hb => store32_of_notMem (hsize ▸ hb x hx) v

theorem frame_store8 (hx : x ∈ W) (hsize : P.size x = 1) (v : BitVec 8) :
    P.Frame W m (store8 m (P.addr x) v) := by
  intro b hb
  refine store8_of_ne ?_ v
  rintro rfl
  have hout := hb x hx
  rw [BitVec.sub_self, hsize] at hout
  exact absurd hout (by decide)

/-- Objects of different addresses. -/
theorem addr_injective_of_pos (hx : 0 < P.size x) (h : P.addr x = P.addr y) : x = y := by
  rcases Classical.em (x = y) with hxy | hxy
  · exact hxy
  · have hapart := (P.apart x y hxy).1
    rw [h, BitVec.sub_self] at hapart
    exact absurd hapart (Nat.not_le.mpr hx)

/-! ### Parts of objects -/

/-- Parts `ν` of the objects, given by the object, the offset in it and the width. -/
structure Parts (P : Placement ο) (ν : Type*) where
  object : ν → ο
  offset : ν → ℕ
  width : ν → ℕ
  width_pos : ∀ x, 0 < width x
  offset_le : ∀ x, offset x + width x ≤ P.size (object x)
  disjoint : ∀ x y, x ≠ y → object x = object y →
    offset x + width x ≤ offset y ∨ offset y + width y ≤ offset x

namespace Parts

variable (F : P.Parts ν)

/-- The address of a part. -/
def addr (x : ν) : BitVec 32 := P.addr (F.object x) + BitVec.ofNat 32 (F.offset x)

theorem addr_sub_le (x : ν) :
    (F.addr x - P.addr (F.object x)).toNat + F.width x ≤ P.size (F.object x) := by
  have hle := F.offset_le x
  have hsub : F.addr x - P.addr (F.object x) = BitVec.ofNat 32 (F.offset x) := by
    rw [addr, BitVec.add_comm, BitVec.add_sub_cancel]
  rw [hsub, BitVec.toNat_ofNat]
  exact Nat.le_trans (Nat.add_le_add_right (Nat.mod_le _ _) _) hle

/-- Parts of one object with an offset that is not below the end of the other one. -/
theorem blocksApart_of_le {x y : ν} (hobj : F.object x = F.object y)
    (h : F.offset x + F.width x ≤ F.offset y) :
    BlocksApart (F.addr x) (F.width x) (F.addr y) (F.width y) := by
  have hx := F.width_pos x
  have hy := F.width_pos y
  have hle := F.offset_le y
  have hsize := P.size_le (F.object y)
  rw [BlocksApart, addr, addr, hobj]
  generalize P.addr (F.object y) = a
  constructor <;> bv_omega

/-- The placement of the parts. -/
def placement : Placement ν where
  addr := F.addr
  size := F.width
  size_le x := by
    have hle := F.offset_le x
    have hsize := P.size_le (F.object x)
    omega
  apart x y hxy := by
    rcases Classical.em (F.object x = F.object y) with hobj | hobj
    · rcases F.disjoint x y hxy hobj with h | h
      · exact F.blocksApart_of_le hobj h
      · exact (F.blocksApart_of_le hobj.symm h).symm
    · have hx := (P.apart _ _ hobj).sub (F.width_pos x) (F.addr_sub_le x)
      exact (hx.symm.sub (F.width_pos y) (F.addr_sub_le y)).symm

variable {F}

/-- What differs in some parts only differs in their objects only. -/
theorem frame {W : Set ν} (h : F.placement.Frame W m m') : P.Frame (F.object '' W) m m' := by
  intro b hb
  refine h b fun x hx => ?_
  have hobj := hb (F.object x) ⟨x, hx, rfl⟩
  have hle := F.addr_sub_le x
  change F.width x ≤ (b - F.addr x).toNat
  generalize F.addr x = c at hle ⊢
  bv_omega

end Parts

end Placement

end ByteMemory
