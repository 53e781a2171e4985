import LiteRTOS.Mcal.Mcu
import Mathlib.Tactic.SplitIfs

/-!
# The SysTick timer

With its counter enabled and clocked by the processor, the timer counts down by one in every cycle
and makes the SysTick exception pending when it comes to zero. The next cycle loads it with the
value of `STK_LOAD`, so that a period has one cycle more than this value. `SysTick_Init` loads
180000, which is the number of cycles of a millisecond at 180 MHz. A period has 180001.

## Main definitions

* `sysTickCycle`, `sysTickExpires`: a cycle of the processor clock.
* `SysTickRuns`: the timer as `SysTick_Init` leaves it, at any point of its period.
* `sysTickElapsed`: the cycles since the last time at zero.

## Main results

* `sysTickRuns_init`: the timer after `SysTick_Init`.
* `SysTickRuns.cycle`, `SysTickRuns.elapsed_cycle`: one cycle.
-/

namespace LiteRTOS

open ByteMemory

/-- The counter is enabled, with the processor clock as its source. -/
def sysTickCounts (scs : ByteMemory) : Bool :=
  (load32 scs stkCtrl).getLsbD 0 && (load32 scs stkCtrl).getLsbD 2

/-- A cycle of the processor clock. COUNTFLAG is left out, since nothing reads it. -/
def sysTickCycle (scs : ByteMemory) : ByteMemory :=
  if sysTickCounts scs then
    if load32 scs stkVal = 0 then store32 scs stkVal (load32 scs stkLoad &&& 0xFFFFFF)
    else store32 scs stkVal (load32 scs stkVal - 1)
  else scs

/-- A cycle in which the exception becomes pending. -/
def sysTickExpires (scs : ByteMemory) : Bool :=
  sysTickCounts scs && (load32 scs stkCtrl).getLsbD 1 && decide (load32 scs stkVal = 1)

/-- The cycles of a period of the timer. -/
def sysTickPeriod : ℕ := 180001

/-- The cycles since the last time at zero. -/
def sysTickElapsed (scs : ByteMemory) : ℕ :=
  if load32 scs stkVal = 0 then 0 else sysTickPeriod - (load32 scs stkVal).toNat

/-- The timer runs with the period that `SysTick_Init` has set. -/
structure SysTickRuns (scs : ByteMemory) : Prop where
  ctrl : load32 scs stkCtrl = 7
  load : load32 scs stkLoad = 180000
  val : (load32 scs stkVal).toNat < sysTickPeriod

variable {scs scs' : ByteMemory}

/-- `SysTick_Init`, whatever the registers contain. -/
theorem sysTickRuns_init (scs : ByteMemory) :
    SysTickRuns (sysTickInit scs) ∧ load32 (sysTickInit scs) stkVal = 0 := by
  have hcl : Apart stkCtrl stkLoad := by decide
  have hcv : Apart stkCtrl stkVal := by decide
  have hvl : Apart stkVal stkLoad := by decide
  have hval : load32 (sysTickInit scs) stkVal = 0 := by
    simp only [sysTickInit, load32_store32_of_apart hcv, load32_store32_self]
  refine ⟨⟨?_, ?_, by rw [hval]; decide⟩, hval⟩
  · simp only [sysTickInit, load32_store32_self]
    decide
  · simp only [sysTickInit, load32_store32_of_apart hcl, load32_store32_of_apart hvl,
      load32_store32_self]

namespace SysTickRuns

theorem of_eq (h : SysTickRuns scs) (hctrl : load32 scs' stkCtrl = load32 scs stkCtrl)
    (hload : load32 scs' stkLoad = load32 scs stkLoad)
    (hval : load32 scs' stkVal = load32 scs stkVal) : SysTickRuns scs' :=
  ⟨hctrl.trans h.ctrl, hload.trans h.load, hval ▸ h.val⟩

theorem counts (h : SysTickRuns scs) : sysTickCounts scs = true := by
  rw [sysTickCounts, h.ctrl]
  decide

theorem expires_iff (h : SysTickRuns scs) :
    sysTickExpires scs = true ↔ load32 scs stkVal = 1 := by
  simp [sysTickExpires, h.counts, h.ctrl]

/-- The value after a cycle. -/
theorem val_cycle (h : SysTickRuns scs) : load32 (sysTickCycle scs) stkVal =
    if load32 scs stkVal = 0 then 180000 else load32 scs stkVal - 1 := by
  rw [sysTickCycle, if_pos h.counts]
  split_ifs
  · rw [load32_store32_self, h.load]
    decide
  · exact load32_store32_self ..

/-- A cycle writes no register but `STK_VAL`. -/
theorem load32_cycle {a : BitVec 32} (ha : Apart stkVal a) (scs : ByteMemory) :
    load32 (sysTickCycle scs) a = load32 scs a := by
  rw [sysTickCycle]
  split_ifs
  · exact load32_store32_of_apart ha _
  · exact load32_store32_of_apart ha _
  · rfl

theorem cycle (h : SysTickRuns scs) : SysTickRuns (sysTickCycle scs) where
  ctrl := (load32_cycle (by decide) scs).trans h.ctrl
  load := (load32_cycle (by decide) scs).trans h.load
  val := by
    have hval := h.val
    rw [h.val_cycle]
    split_ifs with hzero
    · decide
    · bv_omega

theorem elapsed_lt (h : SysTickRuns scs) : sysTickElapsed scs < sysTickPeriod := by
  have hval := h.val
  rw [sysTickElapsed]
  split_ifs with hzero
  · decide
  · bv_omega

/-- A cycle is one more since the last time at zero, or brings the timer there. -/
theorem elapsed_cycle (h : SysTickRuns scs) :
    sysTickElapsed (sysTickCycle scs) + (if sysTickExpires scs then sysTickPeriod else 0) =
      sysTickElapsed scs + 1 := by
  have hval := h.val
  simp only [sysTickElapsed, h.val_cycle, h.expires_iff]
  generalize load32 scs stkVal = v at hval
  rw [sysTickPeriod] at *
  by_cases hzero : v = 0
  · simp [hzero]
  · by_cases hone : v = 1
    · simp [hone]
    · have hne : v - 1 ≠ 0 := by bv_omega
      rw [if_neg hzero, if_neg hne, if_neg hone, if_neg hzero]
      bv_omega

end SysTickRuns

end LiteRTOS
