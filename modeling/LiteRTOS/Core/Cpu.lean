import LiteRTOS.Library.ByteBlock
import Mathlib.Data.Nat.Bitwise
import Mathlib.Tactic.SplitIfs

/-!
# The processor: registers, exception entry and exception return

The state of a Cortex-M4F whose threads and handlers all run on the main stack pointer, and what
the processor does when it takes PendSV and when it returns from it. An exception taken while
CONTROL.FPCA is set stacks the extended frame of 26 words, and the basic frame of 8 words
otherwise; bit 4 of the value in LR tells the handler's exit which of them to pop. With lazy
state preservation the floating-point words of the frame are reserved and not written, and are not
read back unless they have been.

## Main definitions

* `Context`, `Cpu`: the integer registers, and the whole state.
* `Cpu.exceptionEntry`, `Cpu.exceptionReturn`: the processor's part of an exception.
* `Context.stackedPsr`, `Cpu.framePtr`: the saved program status and the place of the frame.
* `Context.Valid`: the bits of SP, PC and xPSR that read as zero in a thread.

## Main results

* `Cpu.sp_framePtr`, `Context.xpsr_stackedPsr`: the alignment of the frame is undone.
-/

namespace LiteRTOS

open ByteMemory

/-! ### State -/

/-- The numbers of the registers R0 to R12 are literals of `Fin 13`. -/
instance neZero_thirteen : NeZero 13 := ⟨by decide⟩

/-- The integer registers of a thread. -/
@[ext]
structure Context where
  /-- R0 to R12. -/
  r : Fin 13 → BitVec 32
  sp : BitVec 32
  lr : BitVec 32
  pc : BitVec 32
  xpsr : BitVec 32

/-- Bits 1:0 of SP, bit 0 of PC and bit 9 of xPSR are zero in a running thread. -/
structure Context.Valid (x : Context) : Prop where
  sp : x.sp.toNat % 4 = 0
  pc : x.pc &&& ~~~1#32 = x.pc
  xpsr : x.xpsr &&& ~~~(1#32 <<< 9) = x.xpsr

/-- The processor and its memory. -/
structure Cpu extends Context where
  /-- PRIMASK: interrupts are disabled. -/
  primask : Bool
  /-- CONTROL.FPCA: a floating-point context is active. -/
  fpca : Bool
  /-- FPCCR.LSPEN: lazy preservation of the floating-point state. -/
  lspen : Bool
  /-- FPCCR.LSPACT: a frame is reserved for the floating-point state and not yet written. -/
  lspact : Bool
  /-- S0 to S31. -/
  s : Fin 32 → BitVec 32
  fpscr : BitVec 32
  mem : ByteMemory

/-! ### Frames -/

/-- The size in bytes of the frame that the processor stacks. -/
def frameSize (extended : Bool) : BitVec 32 := if extended then 0x68 else 0x20

/-- The EXC_RETURN value of an exception taken in a thread on the main stack. -/
def excReturn (extended : Bool) : BitVec 32 := if extended then 0xFFFFFFE9 else 0xFFFFFFF9

/-- The frame that an EXC_RETURN value names: bit 4 is clear for the extended one. -/
def namesExtended (exc : BitVec 32) : Bool := !exc.getLsbD 4

@[simp] theorem namesExtended_excReturn (extended : Bool) :
    namesExtended (excReturn extended) = extended := by
  cases extended <;> rfl

/-- The program status as it is stacked: bit 9 records bit 2 of SP. -/
def Context.stackedPsr (x : Context) : BitVec 32 :=
  (x.xpsr &&& ~~~(1#32 <<< 9)) ||| if x.sp.getLsbD 2 then 1#32 <<< 9 else 0

namespace Cpu

/-- The address of the frame: SP less the size of the frame, aligned to 8 bytes. -/
def framePtr (c : Cpu) : BitVec 32 := (c.sp - frameSize c.fpca) &&& ~~~4#32

/-- The words of the basic frame. -/
def basicFrame (c : Cpu) : List (BitVec 32) :=
  [c.r 0, c.r 1, c.r 2, c.r 3, c.r 12, c.lr, c.pc, c.stackedPsr]

/-- The words that follow in the extended frame: S0 to S15 and FPSCR, without the reserved one. -/
def fpFrame (c : Cpu) : List (BitVec 32) :=
  (List.ofFn fun i : Fin 16 => c.s (i.castLE (by decide))) ++ [c.fpscr]

/-- Taking the exception number 14 in a thread: the frame is pushed, LR gets the EXC_RETURN value
and the handler starts without a floating-point context. PC is not followed through the handler,
whose instructions are executed in order. -/
def exceptionEntry (c : Cpu) : Cpu :=
  let mem := storeWords c.mem c.framePtr c.basicFrame
  { c with
    sp := c.framePtr
    lr := excReturn c.fpca
    xpsr := (c.xpsr &&& ~~~0x0600FDFF) ||| 14
    fpca := false
    lspact := c.fpca && c.lspen
    mem := if c.fpca && !c.lspen then storeWords mem (c.framePtr + 0x20) c.fpFrame else mem }

/-- Returning from an exception with the value `exc`: the frame that it names is popped. -/
def exceptionReturn (exc : BitVec 32) (c : Cpu) : Cpu :=
  let frame := word c.mem c.sp
  let psr := frame 7
  let restoresFp := namesExtended exc && !c.lspact
  { c with
    r := fun i => if i < 4 then frame i else if i = 12 then frame 4 else c.r i
    lr := frame 5
    pc := frame 6 &&& ~~~1#32
    xpsr := psr &&& ~~~(1#32 <<< 9)
    sp := (c.sp + frameSize (namesExtended exc)) ||| if psr.getLsbD 9 then 4 else 0
    fpca := namesExtended exc
    lspact := c.lspact && !namesExtended exc
    s := fun i => if restoresFp && i < 16 then frame (8 + i) else c.s i
    fpscr := if restoresFp then frame 24 else c.fpscr }

end Cpu

/-! ### The alignment of the frame -/

theorem and_not_add_and (y k : BitVec 32) : (y &&& ~~~k) + (y &&& k) = y := by
  have hzero : (y &&& ~~~k) &&& (y &&& k) = 0#32 := by
    rw [BitVec.and_assoc, ← BitVec.and_assoc (~~~k), BitVec.and_comm (~~~k) y,
      BitVec.and_assoc y, BitVec.not_and_self]
    simp
  have hor : (y &&& ~~~k) ||| (y &&& k) = y := by
    rw [← BitVec.and_or_distrib_left, BitVec.not_or_self, BitVec.and_allOnes]
  rw [BitVec.add_eq_or_of_and_eq_zero _ _ hzero, hor]

theorem toNat_and_four (y : BitVec 32) : (y &&& 4#32).toNat = 4 * (y.toNat / 4 % 2) := by
  have hbit : (y.toNat.testBit 2).toNat = y.toNat / 2 ^ 2 % 2 := Nat.toNat_testBit ..
  rw [BitVec.toNat_and, show (4#32).toNat = 2 ^ 2 from rfl, Nat.and_two_pow, hbit, Nat.mul_comm]
  rfl

/-- Clearing bit 2 takes four off when it is set. -/
theorem toNat_and_not_four (y : BitVec 32) :
    (y &&& ~~~4#32).toNat = y.toNat - 4 * (y.toNat / 4 % 2) := by
  have hsum := and_not_add_and y 4#32
  have hfour := toNat_and_four y
  generalize y &&& ~~~4#32 = u at hsum ⊢
  generalize y &&& 4#32 = v at hsum hfour
  subst hsum
  bv_omega

/-- Clearing bits 1:0 of a multiple of four. -/
theorem and_not_three {y : BitVec 32} (h : y.toNat % 4 = 0) : y &&& ~~~3#32 = y := by
  have hzero : y &&& 3#32 = 0#32 := by
    refine BitVec.eq_of_toNat_eq ?_
    rw [BitVec.toNat_and, show (3#32).toNat = 2 ^ 2 - 1 from rfl, Nat.and_two_pow_sub_one_eq_mod]
    exact h
  have hsum := and_not_add_and y 3#32
  rwa [hzero, BitVec.add_zero] at hsum

/-- The distance of a saved block of `n` bytes below `sp` from the start of the stack. -/
theorem toNat_saveBlock_sub {sp base : BitVec 32} {n : ℕ}
    (h : n + 4 * (sp.toNat / 4 % 2) ≤ (sp - base).toNat) :
    ((sp &&& ~~~4#32) - BitVec.ofNat 32 n - base).toNat =
      (sp - base).toNat - n - 4 * (sp.toNat / 4 % 2) := by
  have hsum := and_not_add_and sp 4#32
  have hfour := toNat_and_four sp
  have hn : (BitVec.ofNat 32 n).toNat = n := by
    rw [BitVec.toNat_ofNat, Nat.mod_eq_of_lt (by omega)]
  generalize BitVec.ofNat 32 n = k at hn ⊢
  generalize sp &&& ~~~4#32 = y at hsum ⊢
  generalize sp &&& 4#32 = v at hsum hfour
  have hsub : y - k - base = (sp - base) - (v + k) := by
    clear h hn hfour
    subst hsum
    bv_omega
  have hk : (v + k).toNat = 4 * (sp.toNat / 4 % 2) + n := by
    rw [BitVec.toNat_add, hfour, hn, Nat.mod_eq_of_lt (by omega)]
  rw [hsub, BitVec.toNat_sub_of_le (by rw [BitVec.le_def, hk]; omega), hk]
  omega

theorem toNat_saveBlock_mod_four {sp : BitVec 32} (hsp : sp.toNat % 4 = 0) {n : ℕ}
    (hn : n % 4 = 0) : ((sp &&& ~~~4#32) - BitVec.ofNat 32 n).toNat % 4 = 0 := by
  have halign := toNat_and_not_four sp
  rw [BitVec.toNat_sub, BitVec.toNat_ofNat]
  omega

theorem frameSize_mod_eight (extended : Bool) : (frameSize extended).toNat % 8 = 0 := by
  cases extended <;> rfl

theorem le_frameSize (extended : Bool) : 0x20 ≤ (frameSize extended).toNat := by
  cases extended <;> decide

theorem Context.getLsbD_stackedPsr (x : Context) : x.stackedPsr.getLsbD 9 = x.sp.getLsbD 2 := by
  rw [stackedPsr]
  generalize x.sp.getLsbD 2 = align
  cases align <;> simp

/-- Popping the program status clears bit 9 again. -/
theorem Context.stackedPsr_and (x : Context) :
    x.stackedPsr &&& ~~~(1#32 <<< 9) = x.xpsr &&& ~~~(1#32 <<< 9) := by
  rw [stackedPsr, BitVec.and_or_distrib_right, BitVec.and_assoc, BitVec.and_self]
  split_ifs
  · rw [BitVec.and_not_self]
    exact BitVec.or_zero
  · rw [BitVec.ofNat_eq_ofNat, BitVec.zero_and, BitVec.or_zero]

namespace Cpu

variable (c : Cpu)

theorem framePtr_eq : c.framePtr = (c.sp &&& ~~~4#32) - frameSize c.fpca := by
  have hsize := frameSize_mod_eight c.fpca
  refine BitVec.eq_of_toNat_eq ?_
  rw [framePtr, toNat_and_not_four, BitVec.toNat_sub, BitVec.toNat_sub, toNat_and_not_four]
  omega

/-- Popping the frame restores SP. -/
theorem sp_framePtr :
    (c.framePtr + frameSize c.fpca) ||| (if c.stackedPsr.getLsbD 9 then 4#32 else 0) = c.sp := by
  have hfour : (if c.sp.getLsbD 2 then 4#32 else 0) = c.sp &&& 4#32 :=
    (BitVec.and_twoPow c.sp 2).symm
  rw [framePtr_eq, BitVec.sub_add_cancel, Context.getLsbD_stackedPsr, hfour,
    ← BitVec.and_or_distrib_left, BitVec.not_or_self, BitVec.and_allOnes]

end Cpu

end LiteRTOS
