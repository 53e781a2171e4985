import LiteRTOS.Mcal.IrqPriorities
import LiteRTOS.OS.System
import Mathlib.Tactic.IntervalCases

/-!
# The priorities of PendSV and SysTick

`OS_Init` sets out to give PendSV the lowest priority and `OS_OnStartup` gives SysTick the highest
one. The former does so through the macro `NVIC_SYS_PRI3_R`, which adds `0x20` to a pointer to
words, so that its store is to the word at `0xE000ED80` and not to the one at `0xE000ED20`. The
priority byte of PendSV keeps the value it has at the start, and the byte at `0xE000ED82` becomes
`0xFF`.

## Main definitions

* `urgency`, `TakenBefore`: the priority of an exception and which of two pending
  exceptions is taken.
* `startPriorities`: `OS_Init` and `OS_OnStartup` with calls of `NVIC_SetPriority` around them.
* `PendSVLowest`: PendSV has the lowest priority and SysTick the highest, and `OS_Init` writes
  nothing else.

## Main results

* `pendSVLowest_iff`: this is so exactly for two initial values of the bytes concerned.
* `pendSV_before_sysTick`: with the registers at zero PendSV is taken before SysTick.
-/

namespace LiteRTOS

open ByteMemory

/-! ### Exceptions and their priorities -/

/-- The number of the PendSV exception. -/
def pendSVException : ℕ := 14

/-- The number of the SysTick exception. -/
def sysTickException : ℕ := 15

/-- The priority of an exception, of which the upper four bits are implemented. -/
def urgency (scs : ByteMemory) (exception : ℕ) : ℕ :=
  (scs (priorityByte exception)).toNat / 16

/-- Of two pending exceptions the one of the smaller priority value is taken, and on equal values
the one of the smaller number. -/
def TakenBefore (scs : ByteMemory) (a b : ℕ) : Prop :=
  urgency scs a < urgency scs b ∨ urgency scs a = urgency scs b ∧ a < b

instance (scs : ByteMemory) (a b : ℕ) : Decidable (TakenBefore scs a b) :=
  inferInstanceAs (Decidable (_ ∨ _))

/-- The number of a system exception other than PendSV and SysTick, as `NVIC_SetPriority` takes
it. -/
def NamesOther (irqn : BitVec 32) : Prop := -15 ≤ irqn.toInt ∧ irqn.toInt ≤ -3

instance (irqn : BitVec 32) : Decidable (NamesOther irqn) := inferInstanceAs (Decidable (_ ∧ _))

/-! ### The start-up of the priorities -/

/-- Calls of `NVIC_SetPriority`. -/
def setPriorities (calls : List (BitVec 32 × BitVec 32)) (k : Kernel) : Kernel :=
  { k with scs := calls.foldl (fun scs c => nvicSetPriority c.1 c.2 scs) k.scs }

/-- `OS_Init` and the call of `OS_OnStartup` in `OS_Run`, with calls of `NVIC_SetPriority` before,
between and after them. -/
def startPriorities (pre mid post : List (BitVec 32 × BitVec 32)) (k : Kernel) :
    Except Fault Kernel := do
  let k ← osInit (setPriorities pre k)
  return setPriorities post (osOnStartup (setPriorities mid k))

/-- In the state `k'` PendSV has the lowest priority and SysTick the priority zero, so that SysTick
is taken first, and between the states `k` and `k₁` before and after `OS_Init` no byte has changed
but the priority of PendSV. -/
structure PendSVLowest (k k₁ k' : Kernel) : Prop where
  pendSV : k'.scs (priorityByte pendSVException) &&& 0xF0 = 0xF0
  sysTick : k'.scs (priorityByte sysTickException) = 0
  frame : ∀ a ≠ priorityByte pendSVException, k₁.scs a = k.scs a
  sysTickFirst : TakenBefore k'.scs sysTickException pendSVException

/-! ### What the stores do -/

/-- `NVIC_SetPriority` on another system exception writes a byte below the one of PendSV. -/
theorem toNat_nvicPriorityAddr {irqn : BitVec 32} (h : NamesOther irqn) :
    0xE000ED15 ≤ (nvicPriorityAddr irqn).toNat ∧ (nvicPriorityAddr irqn).toNat ≤ 0xE000ED21 := by
  obtain ⟨hlow, hhigh⟩ := h
  have hirqn : irqn = BitVec.ofInt 32 irqn.toInt := (BitVec.ofInt_toInt).symm
  generalize irqn.toInt = i at hlow hhigh hirqn
  subst hirqn
  interval_cases i <;> decide

theorem scs_setPriorities {calls : List (BitVec 32 × BitVec 32)} {a : BitVec 32}
    (hcalls : ∀ c ∈ calls, NamesOther c.1) (ha : 0xE000ED21 < a.toNat) (k : Kernel) :
    (setPriorities calls k).scs a = k.scs a := by
  refine nvicSetPriorities_of_notMem (fun c hc => ?_) k.scs
  rintro rfl
  exact absurd (toNat_nvicPriorityAddr (hcalls c hc)).2 (Nat.not_le.mpr ha)

/-- The word that `OS_Init` writes. -/
theorem nvicSysPri3R_eq : nvicSysPri3R = 0xE000ED80 := rfl

/-- `OS_Init` sets one byte to `0xFF`, and it is not the priority of PendSV. -/
theorem exists_osInit (k : Kernel) : ∃ k₁, osInit k = .ok k₁ ∧
    ∀ a, k₁.scs a = if a = 0xE000ED82 then 0xFF else k.scs a := by
  refine ⟨_, rfl, fun a => ?_⟩
  change (k.scs.store32 nvicSysPri3R (k.scs.load32 nvicSysPri3R ||| 0xFF#32 <<< 16)) a = _
  rw [nvicSysPri3R_eq, store32_load32_or]
  by_cases ha : (a - 0xE000ED80).toNat < 4
  · have heq : a = 0xE000ED80 + BitVec.ofNat 32 (a - 0xE000ED80).toNat := by
      rw [BitVec.ofNat_toNat, BitVec.setWidth_eq, BitVec.add_comm, BitVec.sub_add_cancel]
    rw [if_pos ha]
    generalize (a - 0xE000ED80).toNat = n at ha heq
    subst heq
    -- Only the byte at offset two meets the constant.
    obtain rfl | rfl | rfl | rfl : n = 0 ∨ n = 1 ∨ n = 2 ∨ n = 3 := by omega
    · simp
    · simp
    · have hones (b : BitVec 8) : b ||| 255#8 = 255#8 := BitVec.or_allOnes
      simp [hones]
    · simp
  · have hne : a ≠ 0xE000ED82 := by rintro rfl; exact ha (by decide)
    rw [if_neg ha, if_neg hne]

/-- `OS_OnStartup` clears the priority of SysTick. -/
theorem scs_osOnStartup (k : Kernel) (a : BitVec 32) :
    (osOnStartup k).scs a = if a = 0xE000ED23 then 0 else k.scs a := rfl

/-- The priority bytes and the byte that `OS_Init` writes, after the whole start-up. -/
theorem exists_startPriorities {pre mid post : List (BitVec 32 × BitVec 32)}
    (hpre : ∀ c ∈ pre, NamesOther c.1) (hmid : ∀ c ∈ mid, NamesOther c.1)
    (hpost : ∀ c ∈ post, NamesOther c.1) (k : Kernel) :
    ∃ k', startPriorities pre mid post k = .ok k' ∧ k'.scs 0xE000ED23 = 0 ∧
      k'.scs 0xE000ED22 = k.scs 0xE000ED22 := by
  obtain ⟨k₁, hk₁, hscs⟩ := exists_osInit (setPriorities pre k)
  refine ⟨setPriorities post (osOnStartup (setPriorities mid k₁)), ?_, ?_, ?_⟩
  · simp only [startPriorities, hk₁]
    rfl
  · rw [scs_setPriorities hpost (by decide), scs_osOnStartup, if_pos rfl]
  · rw [scs_setPriorities hpost (by decide), scs_osOnStartup, if_neg (by decide),
      scs_setPriorities hmid (by decide), hscs, if_neg (by decide),
      scs_setPriorities hpre (by decide)]

/-- With its urgency bits all ones PendSV has the greatest priority value there is. -/
theorem urgency_of_and_eq {scs : ByteMemory}
    (h : scs (priorityByte pendSVException) &&& 0xF0 = 0xF0) :
    urgency scs pendSVException = 15 := by
  rw [urgency]
  generalize scs (priorityByte pendSVException) = b at h ⊢
  revert b
  decide

/-! ### When the priorities are as intended -/

/-- PendSV has the lowest priority after the start-up, and `OS_Init` has written nothing else,
exactly if PendSV has the lowest priority to begin with and the byte at `0xE000ED82` is already
`0xFF`. -/
theorem pendSVLowest_iff {pre mid post : List (BitVec 32 × BitVec 32)}
    (hpre : ∀ c ∈ pre, NamesOther c.1) (hmid : ∀ c ∈ mid, NamesOther c.1)
    (hpost : ∀ c ∈ post, NamesOther c.1) (k : Kernel) :
    ∃ k₁ k', osInit (setPriorities pre k) = .ok k₁ ∧ startPriorities pre mid post k = .ok k' ∧
      (PendSVLowest (setPriorities pre k) k₁ k' ↔
        k.scs 0xE000ED22 &&& 0xF0 = 0xF0 ∧ k.scs 0xE000ED82 = 0xFF) := by
  obtain ⟨k₁, hk₁, hinit⟩ := exists_osInit (setPriorities pre k)
  obtain ⟨k', hk', hsysTick, hpendSV⟩ := exists_startPriorities hpre hmid hpost k
  have hbyte : (setPriorities pre k).scs 0xE000ED82 = k.scs 0xE000ED82 :=
    scs_setPriorities hpre (by decide) k
  refine ⟨k₁, k', hk₁, hk', fun h => ⟨?_, ?_⟩, fun ⟨hlow, hff⟩ => ⟨?_, hsysTick, ?_, ?_⟩⟩
  · rw [← hpendSV]
    exact h.pendSV
  · rw [← hbyte, ← h.frame 0xE000ED82 (by decide), hinit, if_pos rfl]
  · rw [← hpendSV] at hlow
    exact hlow
  · intro a _
    rw [hinit]
    split_ifs with ha
    · rw [ha, hbyte, hff]
    · rfl
  · rw [← hpendSV] at hlow
    have hzero : urgency k'.scs sysTickException = 0 := by
      rw [urgency, show priorityByte sysTickException = 0xE000ED23 from rfl, hsysTick]
      rfl
    left
    rw [hzero, urgency_of_and_eq hlow]
    decide

/-! ### Examples -/

/-- The priorities are as intended when they already are so at the start. -/
theorem pendSVLowest_of_start : ∃ k₁ k',
    osInit (setPriorities [(-12, 3)] { Kernel.reset with scs := fun _ => 0xFF }) = .ok k₁ ∧
    startPriorities [(-12, 3)] [] [(-5, 1)] { Kernel.reset with scs := fun _ => 0xFF } = .ok k' ∧
    PendSVLowest (setPriorities [(-12, 3)] { Kernel.reset with scs := fun _ => 0xFF }) k₁ k' := by
  have hpre : ∀ c ∈ [((-12, 3) : BitVec 32 × BitVec 32)], NamesOther c.1 :=
    List.forall_mem_singleton.mpr (by decide)
  have hmid : ∀ c ∈ ([] : List (BitVec 32 × BitVec 32)), NamesOther c.1 := List.forall_mem_nil _
  have hpost : ∀ c ∈ [((-5, 1) : BitVec 32 × BitVec 32)], NamesOther c.1 :=
    List.forall_mem_singleton.mpr (by decide)
  obtain ⟨k₁, k', hk₁, hk', hiff⟩ :=
    pendSVLowest_iff hpre hmid hpost { Kernel.reset with scs := fun _ => 0xFF }
  exact ⟨k₁, k', hk₁, hk', hiff.mpr ⟨by decide, by decide⟩⟩

/-- With every register zero at the start, the start-up leaves PendSV at the highest priority, and
it is taken before SysTick. -/
theorem pendSV_before_sysTick : ∃ k₁ k', osInit Kernel.reset = .ok k₁ ∧
    startPriorities [] [] [] Kernel.reset = .ok k' ∧ ¬PendSVLowest Kernel.reset k₁ k' ∧
    k₁.scs 0xE000ED82 ≠ Kernel.reset.scs 0xE000ED82 ∧
    TakenBefore k'.scs pendSVException sysTickException := by
  obtain ⟨k₁, hk₁, hinit⟩ := exists_osInit Kernel.reset
  have hnone : ∀ c ∈ ([] : List (BitVec 32 × BitVec 32)), NamesOther c.1 :=
    List.forall_mem_nil _
  obtain ⟨k', hk', hsysTick, hpendSV⟩ := exists_startPriorities hnone hnone hnone Kernel.reset
  have hzero : k'.scs (priorityByte pendSVException) = 0 := hpendSV
  refine ⟨k₁, k', hk₁, hk', fun h => ?_, ?_, ?_⟩
  · have hlow := h.pendSV
    rw [hzero] at hlow
    exact absurd hlow (by decide)
  · rw [hinit, if_pos rfl]
    decide
  · right
    rw [urgency, urgency, hzero, show priorityByte sysTickException = 0xE000ED23 from rfl, hsysTick]
    decide

end LiteRTOS
